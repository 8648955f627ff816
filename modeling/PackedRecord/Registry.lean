import PackedRecord.Schema.Fingerprint

/-!
# Registries of schemas

A registry caches one schema per name.  Cached schemas are shared: an `Instance` is a schema
with the number it was given when it was admitted, so that two answers can be told to be the
very same schema.  Builders and publishers of a name hold its gate; the entry of a gate is
dropped when its last holder lets go.

A build may itself use the registry.  `Registry.Call` describes single-threaded programs of
such calls, and `Registry.Call.run` carries them out.
-/

namespace PackedRecord

/-- A shared schema. -/
structure Instance where
  number : Nat
  schema : Schema

/-- Cached schemas and the holders of gates, by name. -/
structure Registry where
  cached : Assoc String Instance := []
  gates : Assoc String Nat := []
  /-- Number of the next instance. -/
  next : Nat := 0

namespace Registry

/-- Cached schema of a name. -/
def get? (r : Registry) (name : String) : Option Instance := Assoc.get? name r.cached

/-- Take a hold of the gate of a name. -/
def hold (r : Registry) (name : String) : Registry :=
  { r with gates := Assoc.insert name ((Assoc.get? name r.gates).getD 0 + 1) r.gates }

/-- Let go of the gate of a name. -/
def release (r : Registry) (name : String) : Registry :=
  match Assoc.get? name r.gates with
  | some holders =>
    if holders ≤ 1 then { r with gates := Assoc.erase name r.gates }
    else { r with gates := Assoc.insert name (holders - 1) r.gates }
  | none => r

/-- Cache a schema under a name, unless one is cached: that one is given back if its
fingerprint is the same. -/
def enter (r : Registry) (name : String) (schema : Schema) : Except Error Instance × Registry :=
  match r.get? name with
  | some existing =>
    if existing.schema.fingerprint = schema.fingerprint then (.ok existing, r)
    else (.error (.conflict name .divergentLayout), r)
  | none =>
    let entry : Instance := ⟨r.next, schema⟩
    (.ok entry, { r with cached := Assoc.insert name entry r.cached, next := r.next + 1 })

/-- Cache a schema under its own name. -/
def publish (r : Registry) (schema : Schema) : Except Error Instance × Registry :=
  let (result, r) := (r.hold schema.name).enter schema.name schema
  (result, r.release schema.name)

/-- Cached schema of a name; if there is none, `build` makes one, and may use the registry
meanwhile. -/
def getOrBuild (r : Registry) (name : String)
    (build : Registry → Except Error Schema × Registry) : Except Error Instance × Registry :=
  match r.get? name with
  | some cached => (.ok cached, r)
  | none =>
    match build (r.hold name) with
    | (.error e, r) => (.error e, r.release name)
    | (.ok schema, r) =>
      let (result, r) := r.enter name schema
      (result, r.release name)

/-- Drop the cached schema of a name. -/
def remove (r : Registry) (name : String) : Registry :=
  { r with cached := Assoc.erase name r.cached }

/-- Drop all cached schemas. -/
def clear (r : Registry) : Registry := { r with cached := [] }

/-- Number of cached schemas. -/
def size (r : Registry) : Nat := r.cached.length

/-- A call on a registry.  A build runs some calls of its own and then ends with a schema or a
failure. -/
inductive Call where
  | get (name : String)
  | publish (schema : Except Error Schema)
  | getOrBuild (name : String) (inside : List Call) (result : Except Error Schema)
  | remove (name : String)
  | clear
  | size

/-- The answer to a call. -/
inductive Reply where
  | found (entry : Option Instance)
  | published (result : Except Error Instance)
  /-- Whether the build ran, the answers to its calls, and the result. -/
  | obtained (built : Bool) (inside : List Reply) (result : Except Error Instance)
  | count (n : Nat)

mutual

/-- Carry out a call. -/
def Call.run : Call → Registry → Reply × Registry
  | .get name, r => (.found (r.get? name), r)
  | .publish (.error e), r => (.published (.error e), r)
  | .publish (.ok schema), r =>
    let (result, r) := r.publish schema
    (.published result, r)
  | .getOrBuild name inside result, r =>
    match r.get? name with
    | some cached => (.obtained false [] (.ok cached), r)
    | none =>
      let (replies, r) := runAll inside (r.hold name)
      match result with
      | .error e => (.obtained true replies (.error e), r.release name)
      | .ok schema =>
        let (entered, r) := r.enter name schema
        (.obtained true replies entered, r.release name)
  | .remove name, r => (.found (r.get? name), r.remove name)
  | .clear, r => (.count 0, r.clear)
  | .size, r => (.count r.size, r)

/-- Carry out calls in order. -/
def runAll : List Call → Registry → List Reply × Registry
  | [], r => ([], r)
  | call :: rest, r =>
    let (reply, r) := call.run r
    let (replies, r) := runAll rest r
    (reply :: replies, r)

end

end Registry

end PackedRecord
