import Hayven.Lib.Bytes
import Hayven.Lib.JsNumber
/-!
# JSON values and their coercions

What `JSON.parse` returns, `String(x)` and `Number(x)` on it, and `{ ...x, key: v }` with typed
reads of the fields. Between a finite number and its decimal text stands the runtime, a parameter.
-/

namespace Hayven.Lib

/-! ## Decimal digits -/

def isDigit (u : UInt16) : Bool := 0x30 ≤ u && u ≤ 0x39

def decValue (ds : JsString) : Nat := ds.foldl (fun acc d => acc * 10 + (d.toNat - 48)) 0

/-- The decimal digits of a number that has at most `fuel` of them. -/
def decDigitsFrom : Nat → Nat → JsString
  | 0, _ => []
  | fuel + 1, n => if n < 10 then [(48 + n).toUInt16] else decDigitsFrom fuel (n / 10) ++ [(48 + n % 10).toUInt16]

def decDigits (n : Nat) : JsString := decDigitsFrom (n + 1) n

def intText (i : Int) : JsString := if i < 0 then 0x2D :: decDigits i.natAbs else decDigits i.natAbs

/-! ## Values -/

inductive Json where
  | null
  | bool (b : Bool)
  | num (n : JsNumber)
  | str (s : JsString)
  | arr (items : List Json)
  | obj (fields : List (JsString × Json))

/-- The runtime's conversions between numbers and text. -/
structure NumberText where
  /-- `String(q)` of a finite number. -/
  print : Rat → JsString
  /-- `Number(s)` of a string. -/
  ofString : JsString → JsNumber

namespace Json

/-- `x.key` of a parsed object: the last field of that name. A missing field is `undefined`. -/
def field (key : String) : Json → Option Json
  | .obj fields => (fields.reverse.find? fun p => p.1 = ascii key).map Prod.snd
  | _ => none

/-- `x.key ?? fallback`. -/
def fieldOr (key : String) (fallback : Json) (j : Json) : Json :=
  match j.field key with
  | none | some .null => fallback
  | some v => v

def isObject : Json → Bool
  | .obj _ | .arr _ => true
  | _ => false

/-- Joined by commas. -/
def commaJoin : List JsString → JsString
  | [] => []
  | [s] => s
  | s :: rest => s ++ 0x2C :: commaJoin rest

def numToString (rt : NumberText) : JsNumber → JsString
  | .nan => ascii "NaN"
  | .posInf => ascii "Infinity"
  | .negInf => ascii "-Infinity"
  | .fin q => rt.print q

mutual

/-- `String(x)`. An object that has a field of its own called `toString` cannot be
converted: the call throws. -/
def toJsString (rt : NumberText) : Json → Option JsString
  | .null => some (ascii "null")
  | .bool b => some (ascii (if b then "true" else "false"))
  | .num n => some (numToString rt n)
  | .str s => some s
  | .arr items => (joinParts rt items).map commaJoin
  | .obj fields => if fields.any (fun p => p.1 = ascii "toString") then none else some (ascii "[object Object]")

/-- The parts `Array.prototype.join` puts between its commas. -/
def joinParts (rt : NumberText) : List Json → Option (List JsString)
  | [] => some []
  | .null :: rest => (joinParts rt rest).map ([] :: ·)
  | j :: rest =>
    match toJsString rt j, joinParts rt rest with
    | some s, some parts => some (s :: parts)
    | _, _ => none

end

/-- `Number(x)`; it throws where `String(x)` does. -/
def toNumber (rt : NumberText) : Json → Option JsNumber
  | .null => some (.fin 0)
  | .bool b => some (.fin (if b then 1 else 0))
  | .num n => some n
  | .str s => some (rt.ofString s)
  | j => (toJsString rt j).map rt.ofString

/-! ## Object spread and typed reads -/

/-- The fields `{ ...x }` copies: an array's are its indices. -/
def spread : Json → List (JsString × Json)
  | .obj fields => fields
  | .arr items => items.mapIdx fun i v => (decDigits i, v)
  | _ => []

/-- A field set where it stands, or added last. -/
def putField (k : JsString) (v : Json) (fields : List (JsString × Json)) : List (JsString × Json) :=
  if fields.any (·.1 = k) then fields.map fun p => if p.1 = k then (k, v) else p else fields ++ [(k, v)]

/-- `{ ...x, key: v }`. -/
def setField (j : Json) (key : String) (v : Json) : Json := .obj (putField (ascii key) v j.spread)

def strField (key : String) (j : Json) : Option JsString :=
  match j.field key with
  | some (.str s) => some s
  | _ => none

def arrField (key : String) (j : Json) : Option (List Json) :=
  match j.field key with
  | some (.arr items) => some items
  | _ => none

/-- `x[a] ?? x[b]`, where it is a string. -/
def strFieldOr (a b : String) (j : Json) : Option JsString :=
  match j.field a with
  | none | some .null => j.strField b
  | some (.str s) => some s
  | _ => none

def isNull : Json → Bool
  | .null => true
  | _ => false

/-! ## Reading what was set -/

theorem find_putField (k k' : JsString) (v : Json) (fields : List (JsString × Json)) :
    ((putField k v fields).reverse.find? fun p => p.1 = k').map Prod.snd =
      if k' = k then some v else (fields.reverse.find? fun p => p.1 = k').map Prod.snd := by
  unfold putField
  by_cases hany : fields.any (·.1 = k) = true
  · rw [if_pos hany, ← List.map_reverse, List.find?_map]
    have hany' : ∃ p ∈ fields.reverse, p.1 = k := by
      obtain ⟨p, hp, hk⟩ := List.any_eq_true.1 hany
      exact ⟨p, List.mem_reverse.2 hp, by simpa using hk⟩
    by_cases hk : k' = k
    · subst hk
      rw [if_pos rfl]
      have hsome : (fields.reverse.find? ((fun p => decide (p.1 = k')) ∘ fun p => if p.1 = k' then (k', v) else p)).isSome := by
        rw [List.find?_isSome]
        obtain ⟨p, hp, hpk⟩ := hany'
        exact ⟨p, hp, by simp [hpk]⟩
      obtain ⟨p, hp⟩ := Option.isSome_iff_exists.1 hsome
      have hpk := List.find?_some hp
      rw [hp]
      by_cases h : p.1 = k' <;> simp_all
    · rw [if_neg hk]
      have hfun : ((fun p : JsString × Json => decide (p.1 = k')) ∘ fun p => if p.1 = k then (k, v) else p) =
          fun p => decide (p.1 = k') := by
        funext p
        by_cases h : p.1 = k <;> simp [h, Ne.symm hk]
      rw [hfun, Option.map_map]
      cases hf : fields.reverse.find? (fun p => decide (p.1 = k')) with
      | none => rfl
      | some p =>
        have hpk : p.1 = k' := by simpa using List.find?_some hf
        simp [hpk, hk]
  · rw [if_neg hany, List.reverse_append, List.reverse_singleton, List.singleton_append, List.find?_cons]
    by_cases hk : k' = k
    · simp [hk]
    · simp [hk, Ne.symm hk]

theorem field_setField (key key' : String) (v : Json) (fields : List (JsString × Json)) :
    ((obj fields).setField key v).field key' = if ascii key' = ascii key then some v else (obj fields).field key' :=
  find_putField (ascii key) (ascii key') v fields

@[simp] theorem field_setField_self (key : String) (v : Json) (j : Json) : (j.setField key v).field key = some v := by
  have h := find_putField (ascii key) (ascii key) v j.spread
  rwa [if_pos rfl] at h

@[simp] theorem strField_setField_self (key : String) (s : JsString) (j : Json) :
    (j.setField key (.str s)).strField key = some s := by
  simp [strField]

@[simp] theorem arrField_setField_self (key : String) (items : List Json) (j : Json) :
    (j.setField key (.arr items)).arrField key = some items := by
  simp [arrField]

theorem strField_eq_some {key : String} {j : Json} {s : JsString} :
    j.strField key = some s ↔ j.field key = some (.str s) := by
  unfold strField
  cases j.field key with
  | none => simp
  | some v => cases v <;> simp

/-- Only an object has named fields. -/
theorem obj_of_field {key : String} {j v : Json} (h : j.field key = some v) : ∃ fields, j = .obj fields := by
  cases j with
  | obj fields => exact ⟨fields, rfl⟩
  | _ => cases h

end Json

end Hayven.Lib
