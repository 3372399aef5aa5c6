import Hayven.Lib.Bytes
/-!
# Varints and length-prefixed frames

Little-endian base-128 numbers, and byte strings that are a run of frames, each
a length prefix and that many bytes. `split` cuts off complete frames until the
bytes end, or a prefix or a frame is incomplete, or a prefix is malformed.
-/

namespace Hayven.Lib

/-! ## Base-128 numbers -/

/-- At most `n + 1` bytes, seven bits each, every byte but the last marked. -/
def lebBytes : Nat → Nat → Bytes
  | 0, v => [(v % 128).toUInt8]
  | n + 1, v => if v < 128 then [v.toUInt8] else (v % 128 + 128).toUInt8 :: lebBytes n (v / 128)

inductive LebRead where
  /-- The bytes end inside the number. -/
  | torn
  /-- The number does not end where it must, or is out of range; what was read of it. -/
  | overlong (v : Nat)
  | value (v : Nat) (rest : Bytes)
deriving DecidableEq

/-- Read a number of at most `n + 1` bytes. -/
def readLeb : Nat → Bytes → LebRead
  | _, [] => .torn
  | n, b :: rest =>
    if b.toNat < 128 then .value b.toNat rest
    else match n with
      | 0 => .overlong (b.toNat % 128)
      | n + 1 => match readLeb n rest with
        | .value v rest => .value (b.toNat % 128 + 128 * v) rest
        | .overlong v => .overlong (b.toNat % 128 + 128 * v)
        | .torn => .torn

theorem readLeb_cons (n : Nat) (b : UInt8) (rest : Bytes) : readLeb n (b :: rest) =
    if b.toNat < 128 then .value b.toNat rest
    else match n with
      | 0 => .overlong (b.toNat % 128)
      | n + 1 => match readLeb n rest with
        | .value v rest => .value (b.toNat % 128 + 128 * v) rest
        | .overlong v => .overlong (b.toNat % 128 + 128 * v)
        | .torn => .torn := by
  cases n <;> rfl

theorem readLeb_lebBytes (n v : Nat) (rest : Bytes) (h : v < 128 ^ (n + 1)) :
    readLeb n (lebBytes n v ++ rest) = .value v rest := by
  induction n generalizing v with
  | zero =>
    have hv : v < 128 := by simpa using h
    have hb := toNat_toUInt8 (n := v) (by omega)
    simp only [lebBytes, Nat.mod_eq_of_lt hv, List.singleton_append, readLeb, hb, hv, if_true]
  | succ n ih =>
    by_cases hv : v < 128
    · have hb := toNat_toUInt8 (n := v) (by omega)
      simp only [lebBytes, hv, if_true, List.singleton_append, readLeb, hb]
    · have hb := toNat_toUInt8 (n := v % 128 + 128) (by omega)
      have hq : v / 128 < 128 ^ (n + 1) := by
        rw [Nat.div_lt_iff_lt_mul (by omega), ← pow_succ]
        exact h
      have hge : ¬ v % 128 + 128 < 128 := by omega
      simp only [lebBytes, hv, if_false, List.cons_append, readLeb, hb, hge, ih _ hq]
      congr 1
      omega

/-- A number is read off its own bytes, whatever follows them. -/
theorem readLeb_value {n : Nat} {bytes rest : Bytes} {v : Nat} (h : readLeb n bytes = .value v rest) :
    ∃ header, header ≠ [] ∧ bytes = header ++ rest ∧ ∀ rest', readLeb n (header ++ rest') = .value v rest' := by
  induction bytes generalizing n v with
  | nil => simp [readLeb] at h
  | cons b bytes ih =>
    by_cases hb : b.toNat < 128
    · simp only [readLeb_cons, hb, if_true, LebRead.value.injEq] at h
      obtain ⟨rfl, rfl⟩ := h
      exact ⟨[b], by simp, rfl, fun rest' => by simp [readLeb_cons, hb]⟩
    · cases n with
      | zero => simp [readLeb, hb] at h
      | succ n =>
        simp only [readLeb, hb, if_false] at h
        split at h
        case h_1 v' rest'' hread =>
          cases h
          obtain ⟨header, -, rfl, hany⟩ := ih hread
          exact ⟨b :: header, by simp, rfl, fun rest' => by simp [readLeb, hb, hany rest']⟩
        · cases h
        · cases h

/-- So is one that is too long. -/
theorem readLeb_overlong {n : Nat} {bytes : Bytes} {v : Nat} (h : readLeb n bytes = .overlong v) (more : Bytes) :
    readLeb n (bytes ++ more) = .overlong v := by
  induction bytes generalizing n v with
  | nil => simp [readLeb] at h
  | cons b bytes ih =>
    rw [List.cons_append, readLeb_cons]
    rw [readLeb_cons] at h
    split at h
    case isTrue => cases h
    case isFalse hb =>
      rw [if_neg hb]
      cases n with
      | zero => exact h
      | succ n =>
        dsimp only at h ⊢
        cases hread : readLeb n bytes with
        | value w rest => simp [hread] at h
        | torn => simp [hread] at h
        | overlong w =>
          rw [hread] at h
          rw [ih hread]
          exact h

/-! ## Splitting into frames -/

/-- A length prefix is read off its own bytes. -/
structure LengthPrefix where
  read : Bytes → LebRead
  local_ : ∀ {bytes rest v}, read bytes = .value v rest →
    ∃ header, header ≠ [] ∧ bytes = header ++ rest ∧ ∀ rest', read (header ++ rest') = .value v rest'

structure Frame where
  header : Bytes
  body : Bytes
deriving DecidableEq

def Frame.raw (f : Frame) : Bytes := f.header ++ f.body

inductive TailKind where
  | clean
  | torn
  | overlong (v : Nat)
deriving DecidableEq

/-- The complete frames at the start, what is left, and why it is no frame. -/
structure Split where
  frames : List Frame
  tail : Bytes
  kind : TailKind
deriving DecidableEq

def Split.bodies (s : Split) : List Bytes := s.frames.map Frame.body

/-- The bytes of the complete frames. -/
def Split.good (s : Split) : Bytes := s.frames.flatMap Frame.raw

variable (p : LengthPrefix)

/-- The loop over frames, for at most `fuel` rounds. -/
def splitFrom : Nat → Bytes → Split
  | _, [] => ⟨[], [], .clean⟩
  | 0, bytes => ⟨[], bytes, .torn⟩
  | fuel + 1, bytes =>
    match p.read bytes with
    | .torn => ⟨[], bytes, .torn⟩
    | .overlong v => ⟨[], bytes, .overlong v⟩
    | .value len rest =>
      if len > rest.length then ⟨[], bytes, .torn⟩
      else
        let s := splitFrom fuel (rest.drop len)
        { s with frames := ⟨bytes.take (bytes.length - rest.length), rest.take len⟩ :: s.frames }

/-- Every round takes a byte, so the length is fuel enough. -/
def split (bytes : Bytes) : Split := splitFrom p bytes.length bytes

theorem splitFrom_of_le {n m : Nat} {bytes : Bytes} (hn : bytes.length ≤ n) (hm : bytes.length ≤ m) :
    splitFrom p n bytes = splitFrom p m bytes := by
  induction n generalizing m bytes with
  | zero => cases List.length_eq_zero_iff.1 (Nat.le_zero.1 hn); cases m <;> rfl
  | succ n ih =>
    cases bytes with
    | nil => cases m <;> rfl
    | cons b bytes =>
      obtain ⟨m, rfl⟩ : ∃ m', m = m' + 1 := ⟨m - 1, by simp at hm; omega⟩
      simp only [splitFrom]
      cases hread : p.read (b :: bytes) with
      | torn => rfl
      | overlong v => rfl
      | value len rest =>
        obtain ⟨header, hne, heq, -⟩ := p.local_ hread
        have hlen := congrArg List.length heq
        have hpos := List.length_pos_iff.2 hne
        simp only [List.length_cons, List.length_append] at hlen hn hm
        simp only
        rw [ih (m := m) (by rw [List.length_drop]; omega) (by rw [List.length_drop]; omega)]

@[simp] theorem split_nil : split p [] = ⟨[], [], .clean⟩ := rfl

/-- One frame at the front. -/
theorem split_value {bytes rest : Bytes} {len : Nat} (hread : p.read bytes = .value len rest)
    (hlen : len ≤ rest.length) : split p bytes =
      { split p (rest.drop len) with
        frames := ⟨bytes.take (bytes.length - rest.length), rest.take len⟩ :: (split p (rest.drop len)).frames } := by
  obtain ⟨header, hne, heq, -⟩ := p.local_ hread
  have hpos := List.length_pos_iff.2 hne
  have hlength := congrArg List.length heq
  rw [List.length_append] at hlength
  obtain ⟨n, hn⟩ : ∃ n, bytes.length = n + 1 := ⟨bytes.length - 1, by omega⟩
  cases bytes with
  | nil => simp at hn
  | cons b bytes =>
    have hstart : split p (b :: bytes) = splitFrom p (n + 1) (b :: bytes) := by rw [split, hn]
    rw [hstart]
    have hfuel : (rest.drop len).length ≤ n := by rw [List.length_drop]; omega
    simp only [splitFrom, hread, gt_iff_lt, Nat.not_lt.2 hlen, if_false, split]
    rw [splitFrom_of_le p hfuel le_rfl]

theorem split_torn {bytes rest : Bytes} {len : Nat} (hread : p.read bytes = .value len rest)
    (hlen : rest.length < len) : split p bytes = ⟨[], bytes, .torn⟩ := by
  cases bytes with
  | nil =>
    obtain ⟨header, hne, heq, -⟩ := p.local_ hread
    exact absurd (List.append_eq_nil_iff.1 heq.symm).1 hne
  | cons b bytes => simp [split, splitFrom, hread, hlen]

theorem split_of_torn {bytes : Bytes} (hne : bytes ≠ []) (hread : p.read bytes = .torn) :
    split p bytes = ⟨[], bytes, .torn⟩ := by
  cases bytes with
  | nil => exact absurd rfl hne
  | cons b bytes => simp [split, splitFrom, hread]

theorem split_of_overlong {bytes : Bytes} {v : Nat} (hne : bytes ≠ []) (hread : p.read bytes = .overlong v) :
    split p bytes = ⟨[], bytes, .overlong v⟩ := by
  cases bytes with
  | nil => exact absurd rfl hne
  | cons b bytes => simp [split, splitFrom, hread]

/-- Induction along the frames: the bytes are empty, start no frame, or start with one. -/
theorem split_induction {motive : Bytes → Prop} (nil : motive [])
    (stop : ∀ bytes, bytes ≠ [] → (split p bytes).frames = [] → (split p bytes).tail = bytes →
      (split p bytes).kind ≠ .clean → motive bytes)
    (frame : ∀ header body rest, header ≠ [] → (∀ more, p.read (header ++ more) = .value body.length more) →
      split p (header ++ body ++ rest) =
        { split p rest with frames := ⟨header, body⟩ :: (split p rest).frames } →
      motive rest → motive (header ++ body ++ rest))
    (bytes : Bytes) : motive bytes := by
  induction hn : bytes.length using Nat.strongRecOn generalizing bytes with
  | ind n ih =>
    by_cases hne : bytes = []
    · exact hne ▸ nil
    · cases hread : p.read bytes with
      | torn =>
        have hsplit := split_of_torn p hne hread
        exact stop bytes hne (by simp [hsplit]) (by simp [hsplit]) (by simp [hsplit])
      | overlong v =>
        have hsplit := split_of_overlong p hne hread
        exact stop bytes hne (by simp [hsplit]) (by simp [hsplit]) (by simp [hsplit])
      | value len rest =>
        by_cases hlen : len ≤ rest.length
        · have hsplit := split_value p hread hlen
          obtain ⟨header, hheader, rfl, hany⟩ := p.local_ hread
          have hbody : (rest.take len).length = len := by simp [hlen]
          have hbytes : header ++ rest = header ++ rest.take len ++ rest.drop len := by
            rw [List.append_assoc, List.take_append_drop]
          have hhead : (header ++ rest).take ((header ++ rest).length - rest.length) = header := by
            simp
          rw [hhead] at hsplit
          have hpos := List.length_pos_iff.2 hheader
          have hrest := ih (rest.drop len).length (by
            rw [List.length_append] at hn; rw [List.length_drop]; omega) (rest.drop len) rfl
          rw [hbytes] at hsplit ⊢
          exact frame header (rest.take len) (rest.drop len) hheader (fun more => by rw [hbody]; exact hany more)
            hsplit hrest
        · have hsplit := split_torn p hread (Nat.lt_of_not_le hlen)
          exact stop bytes hne (by simp [hsplit]) (by simp [hsplit]) (by simp [hsplit])

/-- A frame in front of more bytes. -/
theorem split_frame {header body : Bytes} (rest : Bytes)
    (hread : ∀ more, p.read (header ++ more) = .value body.length more) :
    split p (header ++ body ++ rest) = { split p rest with frames := ⟨header, body⟩ :: (split p rest).frames } := by
  have hread' := hread (body ++ rest)
  rw [List.append_assoc, split_value p hread' (by simp)]
  simp

/-- Nothing is lost: the frames and the tail are the bytes. -/
theorem split_bytes (bytes : Bytes) : (split p bytes).good ++ (split p bytes).tail = bytes := by
  induction bytes using split_induction p with
  | nil => rfl
  | stop bytes _ hframes htail _ => simp [Split.good, hframes, htail]
  | frame header body rest _ _ hsplit ih =>
    rw [hsplit]
    simp only [Split.good, List.flatMap_cons, Frame.raw, List.append_assoc] at ih ⊢
    rw [ih]

/-- The tail is empty exactly when the bytes are whole frames. -/
theorem split_tail_eq_nil (bytes : Bytes) : (split p bytes).tail = [] ↔ (split p bytes).kind = .clean := by
  induction bytes using split_induction p with
  | nil => simp
  | stop bytes hne _ htail hkind => simp [htail, hne, hkind]
  | frame header body rest _ _ hsplit ih => rw [hsplit]; exact ih

/-- Bytes after whole frames are split by themselves. -/
theorem split_append (bytes more : Bytes) (h : (split p bytes).kind = .clean) :
    split p (bytes ++ more) = { split p more with frames := (split p bytes).frames ++ (split p more).frames } := by
  induction bytes using split_induction p with
  | nil => simp
  | stop bytes _ _ _ hkind => exact absurd h hkind
  | frame header body rest _ hread hsplit ih =>
    rw [hsplit] at h
    have hrest := ih h
    rw [List.append_assoc, split_frame p _ hread, hrest, hsplit]
    simp

/-- More bytes change none of the complete frames. -/
theorem split_frames_mono (bytes more : Bytes) : (split p bytes).frames <+: (split p (bytes ++ more)).frames := by
  induction bytes using split_induction p with
  | nil => exact List.nil_prefix
  | stop bytes _ hframes _ _ =>
    rw [hframes]
    exact List.nil_prefix
  | frame header body rest _ hread hsplit ih =>
    rw [hsplit, List.append_assoc, split_frame p _ hread]
    exact List.cons_prefix_cons.2 ⟨rfl, ih⟩

/-- Each frame of a split is a prefix that reads as the length of its body. -/
theorem mem_split_frames {bytes : Bytes} {f : Frame} (h : f ∈ (split p bytes).frames) :
    ∀ more, p.read (f.header ++ more) = .value f.body.length more := by
  induction bytes using split_induction p with
  | nil => simp at h
  | stop bytes _ hframes _ _ => simp [hframes] at h
  | frame header body rest _ hread hsplit ih =>
    rw [hsplit] at h
    rcases List.mem_cons.1 h with rfl | h
    · exact hread
    · exact ih h

/-- Frames of a split, put together again. -/
theorem split_raw {frames : List Frame}
    (h : ∀ f ∈ frames, ∀ more, p.read (f.header ++ more) = .value f.body.length more) :
    split p (frames.flatMap Frame.raw) = ⟨frames, [], .clean⟩ := by
  induction frames with
  | nil => rfl
  | cons f rest ih =>
    rw [List.flatMap_cons, Frame.raw, split_frame p _ (h f List.mem_cons_self),
      ih fun g hg => h g (List.mem_cons_of_mem _ hg)]

/-- A prefix takes a byte. -/
theorem header_ne_nil {header : Bytes} {len : Nat} (hread : ∀ more, p.read (header ++ more) = .value len more) :
    header ≠ [] := by
  obtain ⟨header', hne, heq, -⟩ := p.local_ (hread [])
  rwa [List.append_cancel_right heq]

end Hayven.Lib
