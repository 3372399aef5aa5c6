import Hayven.Lib.Doubles
import Hayven.Lib.JsonText
/-!
# JSON that was read and is written again

`JSON.stringify` writes a number past the largest double as `null`. The other values
that `JSON.parse` returns come back as they were: `parseJson_rewritten`.
-/

namespace Hayven.Lib

namespace Json

mutual

/-- The value that the text of a value says. -/
def printed : Json → Json
  | .num (.fin q) => .num (.fin q)
  | .num _ => .null
  | .arr items => .arr (printedItems items)
  | .obj fields => .obj (printedFields fields)
  | j => j

def printedItems : List Json → List Json
  | [] => []
  | j :: rest => printed j :: printedItems rest

def printedFields : List (JsString × Json) → List (JsString × Json)
  | [] => []
  | (k, j) :: rest => (k, printed j) :: printedFields rest

end

theorem printedItems_eq_map (items : List Json) : printedItems items = items.map printed := by
  induction items with
  | nil => rfl
  | cons j rest ih => rw [printedItems, ih, List.map_cons]

theorem finiteItems_iff (items : List Json) : FiniteItems items ↔ ∀ j ∈ items, j.Finite := by
  induction items with
  | nil => simp [FiniteItems]
  | cons j rest ih => simp [FiniteItems, ih]

end Json

variable {rt : NumberText}

mutual

theorem stringify_printed : ∀ j : Json, stringify rt j.printed = stringify rt j
  | .null | .bool _ | .str _ => rfl
  | .num (.fin _) | .num .nan | .num .posInf | .num .negInf => rfl
  | .arr items => by rw [Json.printed, stringify, stringify, stringifyItems_printed]
  | .obj fields => by rw [Json.printed, stringify, stringify, stringifyFields_printed]

theorem stringifyItems_printed : ∀ items : List Json, stringifyItems rt (Json.printedItems items) = stringifyItems rt items
  | [] => rfl
  | [j] => stringify_printed j
  | j :: j' :: rest => by
    have hrest := stringifyItems_printed (j' :: rest)
    rw [Json.printedItems, stringifyItems_cons rt _ _ (by simp [Json.printedItems]), hrest, stringify_printed,
      stringifyItems_cons rt _ _ (List.cons_ne_nil _ _)]

theorem stringifyFields_printed : ∀ fields : List (JsString × Json),
    stringifyFields rt (Json.printedFields fields) = stringifyFields rt fields
  | [] => rfl
  | [(k, j)] => by rw [Json.printedFields, Json.printedFields, stringifyFields, stringifyFields, stringify_printed]
  | (k, j) :: (k', j') :: rest => by
    have hrest := stringifyFields_printed ((k', j') :: rest)
    rw [Json.printedFields, stringifyFields_cons rt _ _ _ (by simp [Json.printedFields]), hrest, stringify_printed,
      stringifyFields_cons rt _ _ _ (List.cons_ne_nil _ _)]

end

/-! ## What a parse returns -/

theorem finite_num_of_rounded (r : Rat) : (Json.num (roundRat r)).printed.Finite := by
  cases h : roundRat r with
  | fin q => exact ⟨q, rfl, roundRat_of_roundRat h⟩
  | nan => trivial
  | posInf => trivial
  | negInf => trivial

theorem finite_of_parseNumber {s rest : JsString} {n : JsNumber} (h : parseNumber s = some (n, rest)) :
    (Json.num n).printed.Finite := by
  unfold parseNumber at h
  split at h <;>
  · obtain ⟨p, -, hp⟩ := Option.map_eq_some_iff.1 h
    cases hp
    exact finite_num_of_rounded _

theorem finite_of_parseWord {word : String} {j j' : Json} {s rest : JsString}
    (h : parseWord word j s = some (j', rest)) (hj : j.printed.Finite) : j'.printed.Finite := by
  unfold parseWord at h
  split at h
  · cases h
    exact hj
  · cases h

mutual

theorem finite_of_parseValue : ∀ (fuel : Nat) {s rest : JsString} {j : Json}, parseValue fuel s = some (j, rest) →
    j.printed.Finite
  | 0, _, _, _, h => by cases h
  | fuel + 1, s, rest, j, h => by
    rw [parseValue] at h
    split at h
    · cases h
    · next u more heq =>
      split at h
      · split at h
        · cases h
          trivial
        · obtain ⟨p, hp, hj⟩ := Option.map_eq_some_iff.1 h
          cases hj
          exact finite_of_parseMembers fuel hp
      split at h
      · split at h
        · cases h
          trivial
        · obtain ⟨p, hp, hj⟩ := Option.map_eq_some_iff.1 h
          cases hj
          exact finite_of_parseElements fuel hp
      split at h
      · obtain ⟨p, hp, hj⟩ := Option.map_eq_some_iff.1 h
        cases hj
        trivial
      split at h
      · exact finite_of_parseWord h trivial
      split at h
      · exact finite_of_parseWord h trivial
      split at h
      · exact finite_of_parseWord h trivial
      · obtain ⟨p, hp, hj⟩ := Option.map_eq_some_iff.1 h
        cases hj
        exact finite_of_parseNumber hp

theorem finite_of_parseElements : ∀ (fuel : Nat) {s rest : JsString} {items : List Json},
    parseElements fuel s = some (items, rest) → Json.FiniteItems (Json.printedItems items)
  | 0, _, _, _, h => by cases h
  | fuel + 1, s, rest, items, h => by
    rw [parseElements] at h
    split at h
    · cases h
    · next j more hvalue =>
      have hj := finite_of_parseValue fuel hvalue
      split at h
      · cases h
        exact ⟨hj, trivial⟩
      · obtain ⟨p, hp, hitems⟩ := Option.map_eq_some_iff.1 h
        cases hitems
        exact ⟨hj, finite_of_parseElements fuel hp⟩
      · cases h

theorem finite_of_parseMembers : ∀ (fuel : Nat) {s rest : JsString} {fields : List (JsString × Json)},
    parseMembers fuel s = some (fields, rest) → Json.FiniteFields (Json.printedFields fields)
  | 0, _, _, _, h => by cases h
  | fuel + 1, s, rest, fields, h => by
    rw [parseMembers] at h
    split at h
    · split at h
      · cases h
      · split at h
        · split at h
          · cases h
          · next j more hvalue =>
            have hj := finite_of_parseValue fuel hvalue
            split at h
            · cases h
              exact ⟨hj, trivial⟩
            · obtain ⟨p, hp, hfields⟩ := Option.map_eq_some_iff.1 h
              cases hfields
              exact ⟨hj, finite_of_parseMembers fuel hp⟩
            · cases h
        · cases h
    · cases h

end

theorem finite_of_parseJson {s : JsString} {j : Json} (h : parseJson s = some j) : j.printed.Finite := by
  unfold parseJson at h
  split at h
  · next hvalue =>
    split at h
    · cases h
      exact finite_of_parseValue _ hvalue
    · cases h
  · cases h

/-- A value whose numbers were read comes back, an infinity as `null`. -/
theorem parseJson_rewritten (hrt : rt.Lossless) {j : Json} (hj : j.printed.Finite) :
    parseJson (stringify rt j) = some j.printed := by
  rw [← stringify_printed]
  exact parseJson_stringify hrt hj

end Hayven.Lib
