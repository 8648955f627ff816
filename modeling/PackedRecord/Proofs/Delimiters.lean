import Mathlib.Order.Basic
import PackedRecord.Error
import PackedRecord.Text.Quoted
import Std.Data.String.ToInt

/-!
# Texts that end by themselves

Parts of a text are told apart by a character that the part before it lacks, or because they
are quoted.

* `cut` — a text up to its delimiter is determined by the whole.
* `mark_cases` — what may hold the delimiter itself ends in one of two places.
* `quoted_append_inj` — a quoted text is determined with any rest behind it.
* `items_append_inj` — so is a list of items between brackets.
-/

namespace PackedRecord.Text

/-! ## Delimiters -/

/-- The text is over, or goes on with a character that stops the part before it. -/
def Stops (stop : Char → Prop) (rest : List Char) : Prop := ∀ c cs, rest = c :: cs → stop c

theorem stops_nil (stop : Char → Prop) : Stops stop [] := by
  intro c cs h
  cases h

theorem stops_cons {stop : Char → Prop} {c : Char} {cs : List Char} (h : stop c) :
    Stops stop (c :: cs) := by
  intro c' cs' h'
  cases h'
  exact h

/-- Parts without a stopping character end at the same place. -/
theorem append_inj_of_stops (stop : Char → Prop) : ∀ {s t x y : List Char},
    (∀ c ∈ s, ¬stop c) → (∀ c ∈ t, ¬stop c) → Stops stop x → Stops stop y → s ++ x = t ++ y →
    s = t ∧ x = y
  | [], [], _, _, _, _, _, _, h => ⟨rfl, h⟩
  | [], c :: t, _, _, _, ht, hx, _, h =>
    absurd (hx c _ h) (ht c List.mem_cons_self)
  | c :: s, [], _, _, hs, _, _, hy, h =>
    absurd (hy c _ h.symm) (hs c List.mem_cons_self)
  | c :: s, d :: t, x, y, hs, ht, hx, hy, h => by
    simp only [List.cons_append, List.cons.injEq] at h
    obtain ⟨rfl, h⟩ := h
    obtain ⟨rfl, hxy⟩ := append_inj_of_stops stop (fun e he => hs e (List.mem_cons_of_mem _ he))
      (fun e he => ht e (List.mem_cons_of_mem _ he)) hx hy h
    exact ⟨rfl, hxy⟩

/-- A part without the delimiter is determined by the whole. -/
theorem cut {c : Char} {s t x y : List Char} (hs : c ∉ s) (ht : c ∉ t)
    (h : s ++ c :: x = t ++ c :: y) : s = t ∧ x = y := by
  obtain ⟨hst, hxy⟩ := append_inj_of_stops (· = c) (fun d hd hdc => hs (hdc ▸ hd))
    (fun d hd hdc => ht (hdc ▸ hd)) (stops_cons rfl) (stops_cons rfl) h
  exact ⟨hst, (List.cons.inj hxy).2⟩

/-- A part between two marks holds all that the first mark introduces, delimiter included. -/
theorem goes_on_of_mark {c d : Char} {u x z a : List Char} (hcd : c ≠ d) (hu : c ∉ u)
    (hx : Stops (· = d) x) (ha : a ≠ []) (h : c :: (u ++ x) = a ++ c :: z) :
    ∃ w, a = c :: (u ++ d :: w) := by
  obtain ⟨e, a, rfl⟩ := List.exists_cons_of_ne_nil ha
  rw [List.cons_append] at h
  obtain ⟨rfl, htail⟩ := List.cons.inj h
  rcases List.append_eq_append_iff.1 htail with ⟨k, rfl, hk⟩ | ⟨k, rfl, hk⟩
  · cases k with
    | nil => exact absurd (hx _ _ hk) hcd
    | cons f w =>
      obtain rfl : f = d := hx _ _ hk
      exact ⟨w, rfl⟩
  · cases k with
    | nil => exact absurd (hx _ _ hk.symm) hcd
    | cons f w =>
      obtain rfl : c = f := (List.cons.inj hk).1
      exact absurd (List.mem_append_right a List.mem_cons_self) hu

/-- Of two parts before a mark that stand at the head of one text, both are the same, or one holds
the other with all that its mark introduces. -/
theorem mark_cases {c d : Char} {s t u v x y : List Char} (hcd : c ≠ d) (hu : c ∉ u) (hv : c ∉ v)
    (hx : Stops (· = d) x) (hy : Stops (· = d) y)
    (h : s ++ c :: (u ++ x) = t ++ c :: (v ++ y)) :
    s = t ∨ (∃ w, s = t ++ c :: (v ++ d :: w)) ∨ ∃ w, t = s ++ c :: (u ++ d :: w) := by
  rcases List.append_eq_append_iff.1 h with ⟨a, rfl, ha⟩ | ⟨a, rfl, ha⟩
  · by_cases hnil : a = []
    · exact .inl (by rw [hnil, List.append_nil])
    · obtain ⟨w, rfl⟩ := goes_on_of_mark hcd hu hx hnil ha
      exact .inr (.inr ⟨w, rfl⟩)
  · by_cases hnil : a = []
    · exact .inl (by rw [hnil, List.append_nil])
    · obtain ⟨w, rfl⟩ := goes_on_of_mark hcd hv hy hnil ha
      exact .inr (.inl ⟨w, rfl⟩)

/-! ## Numbers -/

theorem isDigit_of_mem_toString {n : Nat} {c : Char} (h : c ∈ (toString n).toList) :
    c.isDigit = true := by
  rw [Nat.toString_eq_ofList_toDigits, String.toList_ofList] at h
  exact Nat.isDigit_of_mem_toDigits (by decide) (by decide) h

theorem notMem_toString_nat {c : Char} (hc : c.isDigit = false) (n : Nat) :
    c ∉ (toString n).toList := by
  intro h
  rw [isDigit_of_mem_toString h] at hc
  cases hc

theorem toList_toString_nat_inj {m n : Nat}
    (h : (toString m).toList = (toString n).toList) : m = n :=
  Nat.repr_injective (String.toList_inj.1 h)

theorem notMem_toString_int {c : Char} (hc : c.isDigit = false) (hm : c ≠ '-') (i : Int) :
    c ∉ (toString i).toList := by
  cases i with
  | ofNat n => exact notMem_toString_nat hc n
  | negSucc n =>
    have htext : (toString (Int.negSucc n)).toList = '-' :: (toString (n + 1)).toList := by
      change ("-" ++ toString (n + 1)).toList = _
      rw [String.toList_append]
      rfl
    rw [htext]
    exact fun h => (List.mem_cons.1 h).elim hm (notMem_toString_nat hc (n + 1))

theorem toList_toString_int_inj {i j : Int}
    (h : (toString i).toList = (toString j).toList) : i = j :=
  Int.repr_injective (String.toList_inj.1 h)

theorem digitChar_inj : ∀ {m n : Nat}, m < 16 → n < 16 → m.digitChar = n.digitChar → m = n := by
  have h : ∀ m < 16, ∀ n < 16, m.digitChar = n.digitChar → m = n := by decide
  exact fun {m n} hm hn => h m hm n hn

theorem hexDigits_eq (n : Nat) :
    hexDigits n = if n < 16 then [n.digitChar] else hexDigits (n / 16) ++ [(n % 16).digitChar] :=
  Nat.toDigits_eq_if (by decide)

theorem hexDigits_inj : ∀ {m n : Nat}, hexDigits m = hexDigits n → m = n := by
  intro m
  induction m using Nat.strongRecOn with
  | _ m ih =>
    intro n h
    have hne : ∀ k, hexDigits k ≠ [] := fun k => Nat.toDigits_ne_nil
    rw [hexDigits_eq m, hexDigits_eq n] at h
    split at h
    · rename_i hm
      split at h
      · rename_i hn
        exact digitChar_inj hm hn (List.cons.inj h).1
      · have := congrArg List.length h
        have hpos := List.length_pos_iff.2 (hne (n / 16))
        simp only [List.length_append, List.length_singleton] at this
        omega
    · rename_i hm
      split at h
      · have := congrArg List.length h
        have hpos := List.length_pos_iff.2 (hne (m / 16))
        simp only [List.length_append, List.length_singleton] at this
        omega
      · obtain ⟨hhead, hlast⟩ := List.append_inj' h rfl
        have hdiv := ih (m / 16) (by omega) hhead
        have hmod := digitChar_inj (Nat.mod_lt m (by decide)) (Nat.mod_lt n (by decide))
          (List.cons.inj hlast).1
        omega

theorem brace_notMem_hexDigits (n : Nat) : '\x7d' ∉ hexDigits n := by
  have hdigit : ∀ k < 16, '\x7d' ≠ k.digitChar := by decide
  induction n using Nat.strongRecOn with
  | _ n ih =>
    rw [hexDigits_eq]
    split
    · rename_i hn
      exact fun h => hdigit n hn (List.mem_singleton.1 h)
    · intro h
      rcases List.mem_append.1 h with h | h
      · exact ih (n / 16) (by omega) h
      · exact hdigit _ (Nat.mod_lt n (by decide)) (List.mem_singleton.1 h)

/-! ## Quoted texts -/

/-- Character that an escape by a letter stands for. -/
def unescaped (c : Char) : Char :=
  match c with
  | 'n' => '\n'
  | 'r' => '\r'
  | 't' => '\t'
  | '0' => '\x00'
  | c => c

/-- A character is quoted by a letter, by its code point, or as itself. -/
theorem quoteChar_cases (c : Char) :
    (∃ k, quoteChar c = ['\\', k] ∧ k ≠ 'u' ∧ unescaped k = c) ∨
      quoteChar c = '\\' :: 'u' :: '\x7b' :: (hexDigits c.toNat ++ ['\x7d']) ∨
      quoteChar c = [c] ∧ c ≠ '\\' ∧ c ≠ '"' := by
  unfold quoteChar
  split
  · exact .inl ⟨'"', rfl, by decide, rfl⟩
  · exact .inl ⟨'\\', rfl, by decide, rfl⟩
  · exact .inl ⟨'n', rfl, by decide, rfl⟩
  · exact .inl ⟨'r', rfl, by decide, rfl⟩
  · exact .inl ⟨'t', rfl, by decide, rfl⟩
  · exact .inl ⟨'0', rfl, by decide, rfl⟩
  · rename_i hquote hback _ _ _ _
    split
    · exact .inr (.inl rfl)
    · exact .inr (.inr ⟨rfl, hback, hquote⟩)

/-- The first quoted character of a text is determined. -/
theorem quoteChar_append_inj {c d : Char} {x y : List Char}
    (h : quoteChar c ++ x = quoteChar d ++ y) : c = d ∧ x = y := by
  rcases quoteChar_cases c with ⟨k, hc, hk, rfl⟩ | hc | ⟨hc, hcback, -⟩ <;>
    rcases quoteChar_cases d with ⟨l, hd, hl, rfl⟩ | hd | ⟨hd, hdback, -⟩ <;>
    simp only [hc, hd, List.cons_append, List.nil_append, List.append_assoc, List.cons.injEq,
      true_and] at h
  · exact ⟨h.1 ▸ rfl, h.2⟩
  · exact absurd h.1 hk
  · exact absurd h.1.symm hdback
  · exact absurd h.1.symm hl
  · obtain ⟨hdigits, hrest⟩ := cut (brace_notMem_hexDigits _) (brace_notMem_hexDigits _) h
    exact ⟨Char.ext (UInt32.toNat_inj.1 (hexDigits_inj hdigits)), hrest⟩
  · exact absurd h.1.symm hdback
  · exact absurd h.1 hcback
  · exact absurd h.1 hcback
  · exact h

/-- No quoted character starts with the quote. -/
theorem quoteChar_ne_quote (c : Char) (x y : List Char) : quoteChar c ++ x ≠ '"' :: y := by
  rcases quoteChar_cases c with ⟨k, hc, -, -⟩ | hc | ⟨hc, -, hquote⟩ <;>
    simp only [hc, List.cons_append, ne_eq, List.cons.injEq, not_and]
  · intro h
    exact absurd h (by decide)
  · intro h
    exact absurd h (by decide)
  · intro h
    exact absurd h hquote

theorem quoteChars_append_inj : ∀ {cs ds x y : List Char},
    cs.flatMap quoteChar ++ '"' :: x = ds.flatMap quoteChar ++ '"' :: y → cs = ds ∧ x = y
  | [], [], x, y, h => ⟨rfl, (List.cons.inj h).2⟩
  | [], d :: ds, x, y, h => by
    rw [List.flatMap_cons, List.append_assoc] at h
    exact absurd h.symm (quoteChar_ne_quote d _ _)
  | c :: cs, [], x, y, h => by
    rw [List.flatMap_cons, List.append_assoc] at h
    exact absurd h (quoteChar_ne_quote c _ _)
  | c :: cs, d :: ds, x, y, h => by
    rw [List.flatMap_cons, List.flatMap_cons, List.append_assoc, List.append_assoc] at h
    obtain ⟨rfl, hrest⟩ := quoteChar_append_inj h
    obtain ⟨rfl, hxy⟩ := quoteChars_append_inj hrest
    exact ⟨rfl, hxy⟩

/-- **A quoted text is determined with any rest behind it.** -/
theorem quoted_append_inj {s t : String} {x y : List Char}
    (h : (quoted s).toList ++ x = (quoted t).toList ++ y) : s = t ∧ x = y := by
  simp only [quoted, String.toList_ofList, List.cons_append, List.append_assoc,
    List.nil_append, List.cons.injEq, true_and] at h
  obtain ⟨hst, hxy⟩ := quoteChars_append_inj h
  exact ⟨String.toList_inj.1 hst, hxy⟩

/-! ## Items between brackets -/

/-- The text of an item is not empty and cannot be taken for the end of a list, and it is
determined if a comma or a bracket follows. -/
structure Itemlike {α : Type} (text : α → String) : Prop where
  head : ∀ a, ∃ c cs, (text a).toList = c :: cs ∧ c ≠ ']'
  inj : ∀ {a b : α} {x y : List Char}, Stops (fun c => c = ',' ∨ c = ']') x →
    Stops (fun c => c = ',' ∨ c = ']') y →
    (text a).toList ++ x = (text b).toList ++ y → a = b ∧ x = y

theorem itemlike_nat : Itemlike fun n : Nat => toString n where
  head n := by
    have hne : (toString n).toList ≠ [] := by
      rw [Nat.toString_eq_ofList_toDigits, String.toList_ofList]
      exact Nat.toDigits_ne_nil
    obtain ⟨c, cs, h⟩ := List.exists_cons_of_ne_nil hne
    refine ⟨c, cs, h, ?_⟩
    rintro rfl
    have hmem : ']' ∈ (toString n).toList := by
      rw [h]
      exact List.mem_cons_self
    exact notMem_toString_nat (by decide) n hmem
  inj {a b x y} hx hy h := by
    have hstop : ∀ n : Nat, ∀ c ∈ (toString n).toList, ¬(c = ',' ∨ c = ']') := by
      rintro n c hc (rfl | rfl)
      · exact notMem_toString_nat (by decide) n hc
      · exact notMem_toString_nat (by decide) n hc
    obtain ⟨hab, hxy⟩ := append_inj_of_stops _ (hstop a) (hstop b) hx hy h
    exact ⟨toList_toString_nat_inj hab, hxy⟩

theorem itemlike_quoted : Itemlike quoted where
  head s := by
    refine ⟨'"', s.toList.flatMap quoteChar ++ ['"'], ?_, by decide⟩
    rw [quoted, String.toList_ofList]
    rfl
  inj _ _ h := quoted_append_inj h

/-- Items behind the first one, with the bracket that ends the list. -/
def itemsTail {α : Type} (text : α → String) : List α → List Char
  | [] => [']']
  | a :: rest => ',' :: ' ' :: ((text a).toList ++ itemsTail text rest)

theorem stops_itemsTail {α : Type} (text : α → String) (as : List α) (x : List Char) :
    Stops (fun c => c = ',' ∨ c = ']') (itemsTail text as ++ x) := by
  cases as with
  | nil => exact stops_cons (.inr rfl)
  | cons a rest => exact stops_cons (.inl rfl)

theorem itemsTail_append_inj {α : Type} {text : α → String} (ht : Itemlike text) :
    ∀ {as bs : List α} {x y : List Char},
    itemsTail text as ++ x = itemsTail text bs ++ y → as = bs ∧ x = y
  | [], [], _, _, h => ⟨rfl, (List.cons.inj h).2⟩
  | [], b :: bs, _, _, h => absurd (List.cons.inj h).1 (by decide)
  | a :: as, [], _, _, h => absurd (List.cons.inj h).1 (by decide)
  | a :: as, b :: bs, x, y, h => by
    simp only [itemsTail, List.cons_append, List.append_assoc, List.cons.injEq, true_and] at h
    obtain ⟨rfl, hrest⟩ := ht.inj (stops_itemsTail text as x) (stops_itemsTail text bs y) h
    obtain ⟨rfl, hxy⟩ := itemsTail_append_inj ht hrest
    exact ⟨rfl, hxy⟩

theorem toList_bracketed_nil : (bracketed []).toList = ['[', ']'] := by decide

theorem toList_bracketed_cons {α : Type} (text : α → String) (a : α) (rest : List α) :
    (bracketed ((a :: rest).map text)).toList =
      '[' :: ((text a).toList ++ itemsTail text rest) := by
  have htail : ∀ (as : List α) (s : String), (", ".intercalate (s :: as.map text) ++ "]").toList =
      s.toList ++ itemsTail text as := by
    intro as
    induction as with
    | nil => simp [itemsTail]
    | cons b bs ih =>
      intro s
      rw [List.map_cons, String.intercalate_cons_cons, String.append_assoc, String.toList_append,
        ih, String.toList_append]
      simp [itemsTail]
  rw [bracketed, String.append_assoc, String.toList_append, List.map_cons, htail]
  rfl

theorem notMem_itemsTail {α : Type} {text : α → String} {c : Char} (hc : c ∉ [']', ',', ' '])
    {as : List α} (h : ∀ a, c ∉ (text a).toList) : c ∉ itemsTail text as := by
  simp only [List.mem_cons, List.not_mem_nil, or_false, not_or] at hc
  induction as with
  | nil => simpa [itemsTail] using hc.1
  | cons a rest ih => simp [itemsTail, hc, h a, ih]

/-- A list between brackets has no other characters than its items and what sets them off. -/
theorem notMem_bracketed {α : Type} {text : α → String} {c : Char} (hc : c ∉ ['[', ']', ',', ' '])
    {as : List α} (h : ∀ a, c ∉ (text a).toList) : c ∉ (bracketed (as.map text)).toList := by
  rw [List.mem_cons, not_or] at hc
  obtain ⟨hopen, hrest⟩ := hc
  cases as with
  | nil =>
    rw [List.map_nil, toList_bracketed_nil]
    simp only [List.mem_cons, List.not_mem_nil, or_false, not_or] at hrest ⊢
    exact ⟨hopen, hrest.1⟩
  | cons a rest =>
    rw [toList_bracketed_cons, List.mem_cons, List.mem_append, not_or, not_or]
    exact ⟨hopen, h a, notMem_itemsTail hrest h⟩

/-- **A list between brackets is determined with any rest behind it.** -/
theorem items_append_inj {α : Type} {text : α → String} (ht : Itemlike text) {as bs : List α}
    {x y : List Char}
    (h : (bracketed (as.map text)).toList ++ x = (bracketed (bs.map text)).toList ++ y) :
    as = bs ∧ x = y := by
  cases as with
  | nil =>
    cases bs with
    | nil =>
      rw [List.map_nil, toList_bracketed_nil] at h
      simpa using h
    | cons b bs =>
      obtain ⟨c, cs, hc, hne⟩ := ht.head b
      rw [List.map_nil, toList_bracketed_nil, toList_bracketed_cons, hc] at h
      simp only [List.cons_append, List.cons.injEq, true_and] at h
      exact absurd h.1.symm hne
  | cons a as =>
    obtain ⟨c, cs, hc, hne⟩ := ht.head a
    cases bs with
    | nil =>
      rw [List.map_nil, toList_bracketed_nil, toList_bracketed_cons, hc] at h
      simp only [List.cons_append, List.cons.injEq, true_and] at h
      exact absurd h.1 hne
    | cons b bs =>
      rw [toList_bracketed_cons, toList_bracketed_cons] at h
      simp only [List.cons_append, List.append_assoc, List.cons.injEq, true_and] at h
      obtain ⟨rfl, hrest⟩ := ht.inj (stops_itemsTail text as x) (stops_itemsTail text bs y) h
      obtain ⟨rfl, hxy⟩ := itemsTail_append_inj ht hrest
      exact ⟨rfl, hxy⟩

end PackedRecord.Text
