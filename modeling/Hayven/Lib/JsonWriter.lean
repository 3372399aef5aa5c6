import Hayven.Lib.DecimalText
/-!
# JSON that a program writes itself

A writer that is not `JSON.stringify` may print an integer that no double holds and
escape what it likes. Its text is read as the value that its numbers and strings are
read as, one by one.
-/

namespace Hayven.Lib

/-- What a writer writes: numbers by their text, strings by what stands between the quotes. -/
inductive Written where
  | num (text : JsString)
  | str (body : JsString)
  | arr (items : List Written)
  | obj (fields : List (JsString × Written))

namespace Written

mutual

def text : Written → JsString
  | .num text => text
  | .str body => 0x22 :: body ++ [0x22]
  | .arr items => 0x5B :: itemsText items ++ [0x5D]
  | .obj fields => 0x7B :: fieldsText fields ++ [0x7D]

def itemsText : List Written → JsString
  | [] => []
  | [w] => text w
  | w :: rest => text w ++ 0x2C :: itemsText rest

def fieldsText : List (JsString × Written) → JsString
  | [] => []
  | [(k, w)] => 0x22 :: k ++ 0x22 :: 0x3A :: text w
  | (k, w) :: rest => 0x22 :: k ++ 0x22 :: 0x3A :: text w ++ 0x2C :: fieldsText rest

end

/-- The text of a number is read as that number. -/
def ReadsNumber (text : JsString) (n : JsNumber) : Prop :=
  ∀ rest, Ends rest → parseNumber (text ++ rest) = some (n, rest)

/-- What stands between the quotes is read as that string. -/
def ReadsString (body s : JsString) : Prop := ∀ rest, parseStringBody (body ++ 0x22 :: rest) = some (s, rest)

mutual

inductive Reads : Written → Json → Prop
  | num {text : JsString} {n : JsNumber} (h : ReadsNumber text n) : Reads (.num text) (.num n)
  | str {body s : JsString} (h : ReadsString body s) : Reads (.str body) (.str s)
  | arr {items : List Written} {js : List Json} (h : ReadsItems items js) : Reads (.arr items) (.arr js)
  | obj {fields : List (JsString × Written)} {js : List (JsString × Json)} (h : ReadsFields fields js) :
      Reads (.obj fields) (.obj js)

inductive ReadsItems : List Written → List Json → Prop
  | nil : ReadsItems [] []
  | cons {w : Written} {j : Json} {ws : List Written} {js : List Json} (hw : Reads w j) (hws : ReadsItems ws js) :
      ReadsItems (w :: ws) (j :: js)

inductive ReadsFields : List (JsString × Written) → List (JsString × Json) → Prop
  | nil : ReadsFields [] []
  | cons {body k : JsString} {w : Written} {j : Json} {ws : List (JsString × Written)} {js : List (JsString × Json)}
      (hk : ReadsString body k) (hw : Reads w j) (hws : ReadsFields ws js) :
      ReadsFields ((body, w) :: ws) ((k, j) :: js)

end

theorem ReadsItems.of_map {α : Type} {w : α → Written} {j : α → Json} {l : List α} (h : ∀ a ∈ l, Reads (w a) (j a)) :
    ReadsItems (l.map w) (l.map j) := by
  induction l with
  | nil => exact .nil
  | cons a l ih => exact .cons (h a List.mem_cons_self) (ih fun b hb => h b (List.mem_cons_of_mem _ hb))

/-! ## Heads -/

theorem text_head {w : Written} {j : Json} (h : Reads w j) : ∃ u s, w.text = u :: s ∧ startsValue u = true := by
  cases h with
  | num hn =>
    have hparse := hn [] (by simp [Ends])
    rw [List.append_nil] at hparse
    obtain ⟨u, s, hs, hu⟩ := parseNumber_head hparse
    refine ⟨u, s, by rw [text, hs], ?_⟩
    rcases hu with rfl | hu
    · decide
    · simp [startsValue, hu]
  | str _ => exact ⟨_, _, by rw [text, List.cons_append], by decide⟩
  | arr _ => exact ⟨_, _, by rw [text, List.cons_append], by decide⟩
  | obj _ => exact ⟨_, _, by rw [text, List.cons_append], by decide⟩

theorem skipSpace_text {w : Written} {j : Json} (h : Reads w j) (rest : JsString) :
    skipSpace (w.text ++ rest) = w.text ++ rest := by
  obtain ⟨u, s, hs, hu⟩ := text_head h
  rw [hs, List.cons_append, skipSpace_cons (isSpace_of_startsValue hu)]

theorem itemsText_cons (w : Written) (items : List Written) (hne : items ≠ []) :
    itemsText (w :: items) = w.text ++ 0x2C :: itemsText items := by
  cases items with
  | nil => exact absurd rfl hne
  | cons w' items => rw [itemsText]; exact fun h => absurd h (List.cons_ne_nil _ _)

theorem fieldsText_cons (k : JsString) (w : Written) (fields : List (JsString × Written)) (hne : fields ≠ []) :
    fieldsText ((k, w) :: fields) = 0x22 :: k ++ 0x22 :: 0x3A :: w.text ++ 0x2C :: fieldsText fields := by
  cases fields with
  | nil => exact absurd rfl hne
  | cons p fields => rw [fieldsText]; exact fun h => absurd h (List.cons_ne_nil _ _)

theorem itemsText_head {w : Written} {j : Json} (h : Reads w j) (items : List Written) (rest : JsString) :
    ∃ u s, itemsText (w :: items) ++ rest = u :: s ∧ startsValue u = true := by
  obtain ⟨u, s, hs, hu⟩ := text_head h
  cases items with
  | nil => exact ⟨u, s ++ rest, by rw [itemsText, hs]; rfl, hu⟩
  | cons w' items =>
    refine ⟨u, s ++ 0x2C :: itemsText (w' :: items) ++ rest, ?_, hu⟩
    rw [itemsText_cons w (w' :: items) (List.cons_ne_nil _ _), hs]
    rfl

theorem fieldsText_head (k : JsString) (w : Written) (fields : List (JsString × Written)) (rest : JsString) :
    ∃ s, fieldsText ((k, w) :: fields) ++ rest = 0x22 :: s := by
  cases fields with
  | nil => exact ⟨_, by rw [fieldsText, List.cons_append, List.cons_append]⟩
  | cons p fields =>
    rw [fieldsText_cons k w (p :: fields) (List.cons_ne_nil _ _)]
    exact ⟨_, by rw [List.cons_append, List.cons_append, List.cons_append]⟩

/-! ## Reading -/

mutual

/-- The fuel that reading takes. -/
def cost : Written → Nat
  | .arr items => 1 + costItems items
  | .obj fields => 1 + costFields fields
  | _ => 1

def costItems : List Written → Nat
  | [] => 0
  | w :: rest => 1 + cost w + costItems rest

def costFields : List (JsString × Written) → Nat
  | [] => 0
  | (_, w) :: rest => 1 + cost w + costFields rest

end

theorem parseValue_num {text : JsString} {n : JsNumber} (h : ReadsNumber text n) (fuel : Nat) {rest : JsString}
    (hr : Ends rest) : parseValue (fuel + 1) (text ++ rest) = some (.num n, rest) := by
  have hparse := h rest hr
  obtain ⟨u, s, hs, hu⟩ := parseNumber_head hparse
  have hspace : isSpace u = false := isSpace_of_startsValue (by
    rcases hu with rfl | hu
    · decide
    · simp [startsValue, hu])
  have hother : u ≠ 0x7B ∧ u ≠ 0x5B ∧ u ≠ 0x22 ∧ u ≠ 0x74 ∧ u ≠ 0x66 ∧ u ≠ 0x6E := by
    refine ⟨?_, ?_, ?_, ?_, ?_, ?_⟩ <;> (rintro rfl; revert hu; decide)
  obtain ⟨h1, h2, h3, h4, h5, h6⟩ := hother
  rw [hs] at hparse ⊢
  rw [parseValue, skipSpace_cons hspace]
  simp only [h1, h2, h3, h4, h5, h6, if_false, hparse, Option.map_some]

mutual

/-- A written value is read as what its parts are read as. -/
theorem parseValue_text : ∀ {w : Written} {j : Json}, Reads w j → ∀ fuel, w.cost ≤ fuel → ∀ rest, Ends rest →
    parseValue fuel (w.text ++ rest) = some (j, rest)
  | .num _, _, .num hn, fuel + 1, _, rest, hr => parseValue_num hn fuel hr
  | .str body, _, .str hs, fuel + 1, _, rest, _ => by
    rw [parseValue, skipSpace_text (.str hs), text, List.cons_append, List.cons_append, List.append_assoc]
    simp only [List.singleton_append, hs rest]
    rfl
  | .arr [], _, .arr .nil, fuel + 1, _, rest, _ => rfl
  | .arr (w :: items), _, h, 0, hf, _, _ => by simp [cost] at hf
  | .arr (w :: items), _, .arr (.cons hw hws), fuel + 1, hf, rest, _ => by
    have hitems := parseElements_itemsText (.cons hw hws) (List.cons_ne_nil w items) fuel
      (by simp only [cost] at hf; omega) rest
    rw [parseValue, skipSpace_text (.arr (.cons hw hws)), text, List.cons_append, List.cons_append,
      List.append_assoc, List.singleton_append]
    obtain ⟨u, s, hs, hu⟩ := itemsText_head hw items (0x5D :: rest)
    rw [hs] at hitems
    simp only [hs, skipSpace_cons (isSpace_of_startsValue hu)]
    rw [if_neg (by decide)]
    simp only [if_true]
    split
    case h_1 heq => cases heq; exact absurd rfl (startsValue_ne hu).1
    case h_2 => rw [hitems]; rfl
  | .obj [], _, .obj .nil, fuel + 1, _, rest, _ => rfl
  | .obj ((k, w) :: fields), _, h, 0, hf, _, _ => by simp [cost] at hf
  | .obj ((k, w) :: fields), _, .obj (.cons hk hw hws), fuel + 1, hf, rest, _ => by
    have hfields := parseMembers_fieldsText (.cons hk hw hws) (List.cons_ne_nil (k, w) fields) fuel
      (by simp only [cost] at hf; omega) rest
    rw [parseValue, skipSpace_text (.obj (.cons hk hw hws)), text, List.cons_append, List.cons_append,
      List.append_assoc, List.singleton_append]
    obtain ⟨s, hs⟩ := fieldsText_head k w fields (0x7D :: rest)
    rw [hs] at hfields
    simp only [hs, skipSpace_cons (show isSpace 0x22 = false by decide), if_true]
    split
    case h_1 heq => cases heq
    case h_2 => rw [hfields]; rfl

theorem parseElements_itemsText : ∀ {items : List Written} {js : List Json}, ReadsItems items js → items ≠ [] →
    ∀ fuel, costItems items ≤ fuel → ∀ rest,
    parseElements fuel (itemsText items ++ 0x5D :: rest) = some (js, rest)
  | [], _, _, hne, _, _, _ => absurd rfl hne
  | w :: items, _, _, _, 0, hf, _ => by simp [costItems] at hf
  | [w], _, .cons hw .nil, _, fuel + 1, hf, rest => by
    have hv := parseValue_text hw fuel (by simp only [costItems] at hf; omega) (0x5D :: rest)
      (ends_of_head rest (.inr (.inl rfl)))
    rw [itemsText, parseElements]
    simp only [hv, skipSpace_cons (show isSpace 0x5D = false by decide)]
  | w :: w' :: items, _, .cons hw (.cons hw' hws), _, fuel + 1, hf, rest => by
    have hv := parseValue_text hw fuel (by simp only [costItems] at hf; omega)
      (0x2C :: (itemsText (w' :: items) ++ 0x5D :: rest)) (ends_of_head _ (.inl rfl))
    have hrest := parseElements_itemsText (.cons hw' hws) (List.cons_ne_nil w' items) fuel
      (by simp only [costItems] at hf ⊢; omega) rest
    rw [itemsText_cons w (w' :: items) (List.cons_ne_nil _ _), parseElements, List.append_assoc, List.cons_append]
    simp only [hv, skipSpace_comma, hrest]
    rfl

theorem parseMembers_fieldsText : ∀ {fields : List (JsString × Written)} {js : List (JsString × Json)},
    ReadsFields fields js → fields ≠ [] → ∀ fuel, costFields fields ≤ fuel → ∀ rest,
    parseMembers fuel (fieldsText fields ++ 0x7D :: rest) = some (js, rest)
  | [], _, _, hne, _, _, _ => absurd rfl hne
  | (k, w) :: fields, _, _, _, 0, hf, _ => by simp [costFields] at hf
  | [(k, w)], _, .cons hk hw .nil, _, fuel + 1, hf, rest => by
    have hv := parseValue_text hw fuel (by simp only [costFields] at hf; omega) (0x7D :: rest)
      (ends_of_head rest (.inr (.inr rfl)))
    rw [fieldsText, parseMembers]
    simp only [List.cons_append, List.append_assoc, skipSpace_cons (show isSpace 0x22 = false by decide),
      hk _, skipSpace_cons (show isSpace 0x3A = false by decide), hv, skipSpace_cons (show isSpace 0x7D = false by decide)]
  | (k, w) :: p :: fields, _, .cons hk hw (.cons hk' hw' hws), _, fuel + 1, hf, rest => by
    have hv := parseValue_text hw fuel (by simp only [costFields] at hf; omega)
      (0x2C :: (fieldsText (p :: fields) ++ 0x7D :: rest)) (ends_of_head _ (.inl rfl))
    have hrest := parseMembers_fieldsText (.cons hk' hw' hws) (List.cons_ne_nil p fields) fuel
      (by simp only [costFields] at hf ⊢; omega) rest
    rw [fieldsText_cons k w (p :: fields) (List.cons_ne_nil _ _), parseMembers]
    simp only [List.cons_append, List.append_assoc, skipSpace_cons (show isSpace 0x22 = false by decide),
      hk _, skipSpace_cons (show isSpace 0x3A = false by decide), hv, skipSpace_comma, hrest]
    rfl

end

mutual

theorem cost_le_length : ∀ {w : Written} {j : Json}, Reads w j → w.cost ≤ w.text.length
  | .num _, _, h => by
    obtain ⟨u, s, hs, -⟩ := text_head h
    simp [cost, hs]
  | .str _, _, _ => by simp [cost, text]
  | .arr items, _, .arr h => by
    have := costItems_le_length h
    simp only [cost, text, List.cons_append, List.length_cons, List.length_append, List.length_nil]
    omega
  | .obj fields, _, .obj h => by
    have := costFields_le_length h
    simp only [cost, text, List.cons_append, List.length_cons, List.length_append, List.length_nil]
    omega

theorem costItems_le_length : ∀ {items : List Written} {js : List Json}, ReadsItems items js →
    costItems items ≤ (itemsText items).length + 1
  | [], _, _ => by simp [costItems]
  | [w], _, .cons hw _ => by
    have := cost_le_length hw
    simp only [costItems, itemsText]
    omega
  | w :: w' :: items, _, .cons hw hws => by
    have h1 := cost_le_length hw
    have h2 := costItems_le_length hws
    rw [itemsText_cons w (w' :: items) (List.cons_ne_nil _ _)]
    simp only [costItems, List.length_append, List.length_cons] at h2 ⊢
    omega

theorem costFields_le_length : ∀ {fields : List (JsString × Written)} {js : List (JsString × Json)},
    ReadsFields fields js → costFields fields ≤ (fieldsText fields).length + 1
  | [], _, _ => by simp [costFields]
  | [(k, w)], _, .cons _ hw _ => by
    have := cost_le_length hw
    simp only [costFields, fieldsText, List.length_append, List.length_cons]
    omega
  | (k, w) :: p :: fields, _, .cons _ hw hws => by
    have h1 := cost_le_length hw
    have h2 := costFields_le_length hws
    rw [fieldsText_cons k w (p :: fields) (List.cons_ne_nil _ _)]
    simp only [costFields, List.length_append, List.length_cons] at h2 ⊢
    omega

end

/-- `JSON.parse` of a written text. -/
theorem parseJson_text {w : Written} {j : Json} (h : Reads w j) : parseJson w.text = some j := by
  have hparse := parseValue_text h (w.text.length + 1) (Nat.le_succ_of_le (cost_le_length h)) [] (by simp [Ends])
  rw [List.append_nil] at hparse
  simp [parseJson, hparse, skipSpace]

/-! ## Parts -/

/-- An integer is read as the double nearest to it. -/
theorem readsNumber_intText (k : Int) : ReadsNumber (intText k) (roundRat k) := by
  intro rest hrest
  have hdigits := digits_decDigits k.natAbs
  obtain ⟨u, more, hds, -⟩ := hdigits.head
  have hparse := unsignedNumber_text k.natAbs 0 hrest
  simp only [expText, if_true, List.nil_append, Nat.cast_zero, neg_zero, zpow_zero, mul_one] at hparse
  unfold intText
  split
  case isTrue hneg =>
    have hk : -((k.natAbs : Nat) : Rat) = k := by
      have habs : ((k.natAbs : Nat) : Int) = -k := by omega
      rw [← Int.cast_natCast k.natAbs, habs, Int.cast_neg, neg_neg]
    simp only [List.cons_append, parseNumber, hparse, Option.map_some, hk]
  case isFalse hneg =>
    have hk : ((k.natAbs : Nat) : Rat) = k := by
      have habs : ((k.natAbs : Nat) : Int) = k := by omega
      rw [← Int.cast_natCast k.natAbs, habs]
    have hhead : ∀ v ∈ (decDigits k.natAbs ++ rest).head?, isDigit v = true := by
      intro v hv
      rw [hds] at hv
      cases hv
      exact hdigits.all u (hds ▸ List.mem_cons_self)
    rw [parseNumber_of_head hhead, hparse, Option.map_some, hk]

theorem readsString_quoteBody (s : JsString) : ReadsString (quoteBody s) s := parseStringBody_quoteBody s

end Written

/-! ## Numbers that JSON does not have -/

namespace Json

mutual

/-- What arrives of a value that goes through JSON: no number that is not finite. -/
def received : Json → Json
  | .num (.fin q) => .num (.fin q)
  | .num _ => .null
  | .arr items => .arr (receivedItems items)
  | .obj fields => .obj (receivedFields fields)
  | j => j

def receivedItems : List Json → List Json
  | [] => []
  | j :: rest => received j :: receivedItems rest

def receivedFields : List (JsString × Json) → List (JsString × Json)
  | [] => []
  | (k, j) :: rest => (k, received j) :: receivedFields rest

end

theorem receivedItems_eq_map (items : List Json) : receivedItems items = items.map received := by
  induction items with
  | nil => rfl
  | cons j rest ih => rw [receivedItems, ih, List.map_cons]

end Json

mutual

theorem stringify_received (rt : NumberText) : ∀ j : Json, stringify rt j.received = stringify rt j
  | .null | .bool _ | .str _ | .num (.fin _) | .num .nan | .num .posInf | .num .negInf => rfl
  | .arr items => by rw [Json.received, stringify, stringify, stringifyItems_received rt items]
  | .obj fields => by rw [Json.received, stringify, stringify, stringifyFields_received rt fields]

theorem stringifyItems_received (rt : NumberText) : ∀ items : List Json,
    stringifyItems rt (Json.receivedItems items) = stringifyItems rt items
  | [] => rfl
  | [j] => by
    rw [Json.receivedItems, Json.receivedItems, stringifyItems, stringifyItems, stringify_received rt j]
  | j :: j' :: items => by
    have hrest := stringifyItems_received rt (j' :: items)
    rw [Json.receivedItems, stringifyItems_cons rt j (j' :: items) (List.cons_ne_nil _ _),
      stringifyItems_cons rt _ _ (by rw [Json.receivedItems]; exact List.cons_ne_nil _ _), hrest,
      stringify_received rt j]

theorem stringifyFields_received (rt : NumberText) : ∀ fields : List (JsString × Json),
    stringifyFields rt (Json.receivedFields fields) = stringifyFields rt fields
  | [] => rfl
  | [(k, j)] => by
    rw [Json.receivedFields, Json.receivedFields, stringifyFields, stringifyFields, stringify_received rt j]
  | (k, j) :: p :: fields => by
    have hrest := stringifyFields_received rt (p :: fields)
    rw [Json.receivedFields, stringifyFields_cons rt k j (p :: fields) (List.cons_ne_nil _ _),
      stringifyFields_cons rt k _ _ (by rw [Json.receivedFields]; exact List.cons_ne_nil _ _), hrest,
      stringify_received rt j]

end

end Hayven.Lib
