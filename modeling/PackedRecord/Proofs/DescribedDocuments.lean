import PackedRecord.Description.Document
import PackedRecord.Proofs.Words

/-!
# Documents of descriptions

A description whose numbers are 64-bit ones is read back from its document.

* `Json.parts?_object` — the parts of an object that has them all, in order.
* `EnumTable.ofJson?_toJson`, `Meaning.ofJson?_toJson` — tables and meanings.
* `Description.ofJson?_toJson` — by the induction over nested types; what is read for them nests
  less deep than the document.
-/

namespace PackedRecord

namespace Json

/-- An object has one member of each of its names. -/
theorem filter_of_nodup : ∀ {members : List (String × Json)}, (members.map Prod.fst).Nodup →
    ∀ m ∈ members, members.filter (fun n => n.1 == m.1) = [m]
  | k :: rest, hn, m, hm => by
    obtain ⟨hk, hn⟩ := List.nodup_cons.1 hn
    rcases List.mem_cons.1 hm with rfl | hm
    · have hrest : rest.filter (fun n => n.1 == m.1) = [] := by
        refine List.filter_eq_nil_iff.2 fun n hmem hname => hk ?_
        exact beq_iff_eq.1 hname ▸ List.mem_map_of_mem hmem
      rw [List.filter_cons_of_pos (by simp), hrest]
    · have hne : ¬(k.1 == m.1) = true := fun hname =>
        hk (beq_iff_eq.1 hname ▸ List.mem_map_of_mem hm)
      rw [List.filter_cons_of_neg (p := fun n : String × Json => n.1 == m.1) hne]
      exact filter_of_nodup hn m hm

theorem mapM_map_some {α β γ : Type} {f : α → β} {g : β → Option γ} {h : α → γ} :
    ∀ {l : List α}, (∀ a ∈ l, g (f a) = some (h a)) → (l.map f).mapM g = some (l.map h)
  | [], _ => rfl
  | a :: rest, hall => by
    obtain ⟨ha, hrest⟩ := List.forall_mem_cons.1 hall
    rw [List.map_cons, List.mapM_cons, ha, mapM_map_some hrest]
    rfl

/-- The parts of an object that has them all, in order. -/
theorem parts?_object {required optional : List String} {members : List (String × Json)}
    (hnames : members.map Prod.fst = required ++ optional)
    (hn : (required ++ optional).Nodup) :
    parts? required optional (object members) = some (members.map Prod.snd) := by
  rw [← hnames] at hn
  unfold parts?
  rw [← hnames]
  refine mapM_map_some fun m hm => ?_
  rw [filter_of_nodup hn m hm]

theorem list?_map {α : Type} {read : Json → Option α} {f : α → Json} {l : List α}
    (h : ∀ a ∈ l, read (f a) = some a) : list? read (array (l.map f)) = some l := by
  have hmap := mapM_map_some h
  rwa [List.map_id'] at hmap

theorem size?_integer {n : Nat} (h : n < 2 ^ 64) : size? (integer n) = some n := by
  have hword : uint64? n = some (UInt64.ofNat n) := if_pos ⟨Int.natCast_nonneg n, by omega⟩
  rw [size?, hword, Option.map_some, UInt64.toNat_ofNat_of_lt' h]

theorem int64?_integer {i : Int} (hlo : -2 ^ 63 ≤ i) (hhi : i < 2 ^ 63) :
    ∃ word : Int64, int64? (integer i) = some word ∧ word.toInt = i := by
  have hword : PackedRecord.int64? i = some (Int64.ofInt i) := if_pos ⟨hlo, hhi⟩
  exact ⟨_, hword, toInt_of_int64? hword⟩

theorem option?_of_ne_null {α : Type} {read : Json → Option α} {j : Json} (h : j ≠ null) :
    option? read j = (read j).map some := by
  cases j with
  | null => exact absurd rfl h
  | _ => rfl

theorem option?_ofOption {α : Type} {read : Json → Option α} {f : α → Json} {o : Option α}
    (hnull : ∀ a, f a ≠ null) (h : ∀ a, o = some a → read (f a) = some a) :
    option? read (ofOption f o) = some o := by
  cases o with
  | none => rfl
  | some a => rw [ofOption, option?_of_ne_null (hnull a), h a rfl, Option.map_some]

end Json

namespace EnumTable

theorem ofJson?_toJson {t : EnumTable} (h : t.width < 2 ^ 64) : ofJson? t.toJson = some t := by
  have hparts : t.toJson.parts? partNames [] =
      some [.text t.name, .array (t.labels.map .text),
        .array (t.codes.map fun c => .integer c.toInt), .integer t.width] :=
    Json.parts?_object rfl (by decide)
  have hlabels : Json.list? Json.text? (.array (t.labels.map .text)) = some t.labels :=
    Json.list?_map fun _ _ => rfl
  have hcodes : Json.list? Json.int64? (.array (t.codes.map fun c => .integer c.toInt)) =
      some t.codes := Json.list?_map fun c _ => int64?_toInt c
  unfold ofJson?
  rw [hparts]
  simp only [hlabels, hcodes, Json.size?_integer h]
  rfl

end EnumTable

namespace Meaning

theorem ofJson?_toJson (m : Meaning) : ofJson? m.toJson = some m := by
  obtain u | u := m <;> cases u <;> rfl

end Meaning

namespace Description

mutual

/-- Every number of the description is one of 64 bits, and those that are counts are unsigned. -/
def InWords : Description → Prop
  | ⟨_, totalSize, _, members⟩ => totalSize < 2 ^ 64 ∧ MembersInWords members

/-- Every number of some members is one of 64 bits. -/
def MembersInWords : List DescribedMember → Prop
  | [] => True
  | m :: rest => MemberInWords m ∧ MembersInWords rest

/-- Every number of a member is one of 64 bits. -/
def MemberInWords : DescribedMember → Prop
  | ⟨_, offset, size, _, _, dims, _, _, _, table, nested⟩ =>
    offset < 2 ^ 64 ∧ (-2 ^ 63 ≤ size ∧ size < 2 ^ 63) ∧ (∀ d ∈ dims, d < 2 ^ 64) ∧
      (∀ t, table = some t → t.width < 2 ^ 64) ∧ NestedInWords nested

/-- Every number of a nested type is one of 64 bits. -/
def NestedInWords : Option Description → Prop
  | none => True
  | some d => d.InWords

end

theorem parts?_toJson (name : String) (totalSize : Nat) (order : ByteOrder)
    (members : List DescribedMember) :
    (toJson ⟨name, totalSize, order, members⟩).parts? partNames [] =
      some [.text name, .integer totalSize, .text order.name, .array (membersJson members)] :=
  Json.parts?_object rfl (by decide)

theorem parts?_memberJson (name : String) (offset : Nat) (size : Int)
    (storageClass : StorageClass) (signed : Bool) (dims : List Nat) (charset : Charset)
    (meaning : Option Meaning) (tag : Option String) (table : Option EnumTable)
    (nested : Option Description) :
    (memberJson ⟨name, offset, size, storageClass, signed, dims, charset, meaning, tag, table,
        nested⟩).parts? memberParts optionalParts =
      some [.text name, .integer offset, .integer size, .text storageClass.name, .bool signed,
        .array (dims.map fun (d : Nat) => .integer d), .text charset.name,
        Json.ofOption Meaning.toJson meaning, Json.ofOption .text tag,
        Json.ofOption EnumTable.toJson table, nestedJson nested] :=
  Json.parts?_object rfl (by decide)

mutual

theorem ofJsonWithin?_toJson : ∀ (d : Description), d.InWords → ∀ depth, d.toJson.depth < depth →
    ofJsonWithin? depth d.toJson = some d
  | ⟨name, totalSize, order, members⟩, ⟨hsize, hmembers⟩, depth + 1, hdepth => by
    have horder : (Json.text order.name).variant? ByteOrder.all ByteOrder.name = some order := by
      cases order <;> rfl
    have hdeep : Json.depthAll (membersJson members) ≤ depth := by
      simp only [toJson, Json.depth, Json.depthMembers] at hdepth
      omega
    have hread : (membersJson members).mapM (memberOfJson? (ofJsonWithin? depth)) = some members :=
      membersOfJson?_membersJson members hmembers depth hdeep
    unfold ofJsonWithin?
    rw [parts?_toJson]
    simp only [Json.size?_integer hsize, horder, Json.list?, hread]
    rfl

theorem membersOfJson?_membersJson : ∀ (ms : List DescribedMember), MembersInWords ms →
    ∀ depth, Json.depthAll (membersJson ms) ≤ depth →
      (membersJson ms).mapM (memberOfJson? (ofJsonWithin? depth)) = some ms
  | [], _, _, _ => rfl
  | m :: rest, ⟨hm, hrest⟩, depth, hdepth => by
    rw [membersJson, Json.depthAll] at hdepth
    have hfirst := memberOfJson?_memberJson m hm depth (by omega)
    have hlater := membersOfJson?_membersJson rest hrest depth (by omega)
    rw [membersJson, List.mapM_cons, hfirst, hlater]
    rfl

theorem memberOfJson?_memberJson : ∀ (m : DescribedMember), MemberInWords m →
    ∀ depth, (memberJson m).depth ≤ depth →
      memberOfJson? (ofJsonWithin? depth) (memberJson m) = some m
  | ⟨name, offset, size, storageClass, signed, dims, charset, meaning, tag, table, nested⟩,
      ⟨hoffset, ⟨hlo, hhi⟩, hdims, hwidth, hnested⟩, depth, hdepth => by
    have hdeep : (nestedJson nested).depth < depth := by
      simp only [memberJson, Json.depth, Json.depthMembers] at hdepth
      omega
    have hinner := nestedOfJson?_nestedJson nested hnested depth hdeep
    obtain ⟨word, hword, hsize⟩ := Json.int64?_integer hlo hhi
    have hclass : (Json.text storageClass.name).variant? StorageClass.all StorageClass.name =
        some storageClass := by cases storageClass <;> rfl
    have hextents : (Json.array (dims.map fun (d : Nat) => .integer d)).list? Json.size? =
        some dims := Json.list?_map fun d hd => Json.size?_integer (hdims d hd)
    have hcharset : (Json.text charset.name).variant? Charset.all Charset.name = some charset := by
      cases charset <;> rfl
    have hmeaning : (Json.ofOption Meaning.toJson meaning).option? Meaning.ofJson? = some meaning :=
      Json.option?_ofOption (fun m => by cases m <;> exact Json.noConfusion)
        fun m _ => m.ofJson?_toJson
    have htag : (Json.ofOption Json.text tag).option? Json.text? = some tag :=
      Json.option?_ofOption (fun _ => Json.noConfusion) fun _ _ => rfl
    have htable : (Json.ofOption EnumTable.toJson table).option? EnumTable.ofJson? = some table :=
      Json.option?_ofOption (fun _ => Json.noConfusion) fun t ht => t.ofJson?_toJson (hwidth t ht)
    unfold memberOfJson?
    rw [parts?_memberJson]
    simp only [Json.size?_integer hoffset, hword, hclass, hextents, hcharset, hmeaning, htag,
      htable, hinner]
    simp [Json.text?, Json.bool?, hsize]

theorem nestedOfJson?_nestedJson : ∀ (nested : Option Description), NestedInWords nested →
    ∀ depth, (nestedJson nested).depth < depth →
      (nestedJson nested).option? (ofJsonWithin? depth) = some nested
  | none, _, _, _ => rfl
  | some d, h, depth, hdepth => by
    have hobject : d.toJson ≠ .null := by
      cases d
      exact Json.noConfusion
    rw [nestedJson, Json.option?_of_ne_null hobject, ofJsonWithin?_toJson d h depth hdepth,
      Option.map_some]

end

/-- **A description is read back from its document.** -/
theorem ofJson?_toJson {d : Description} (h : d.InWords) : ofJson? d.toJson = some d :=
  ofJsonWithin?_toJson d h _ (Nat.lt_succ_self _)

end Description

end PackedRecord
