import Hayven.Native.Wire
import Hayven.Lib.KeyedMap
import Mathlib.Algebra.BigOperators.Group.List.Basic
/-!
# Reading a CPU profile

`parseProfileStacks` of `trace/go/pprof.go`, a protobuf reader of the fields that the stacks need.
An `int` has 64 bits and wraps. Unzipping is the standard library's, a parameter here. Fields are
written in any order, with others between them that the reader skips: it finds the stacks.
-/
open Hayven.Lib Hayven.Native

namespace Hayven.Trace.Go

/-! ## The wire -/

/-- An error, by its text, or a slice that ends before it starts. -/
inductive Fault where
  | failed (message : String)
  | panics
deriving DecidableEq

/-- What a `uint64` is as an `int`. -/
def toInt (n : Nat) : Int := (n + 2 ^ 63) % 2 ^ 64 - 2 ^ 63

def badVarint (p : Cursor) : Fault := .failed ("hayven-trace: bad varint at " ++ toString p.pos)

def varint (p : Cursor) : Except Fault (Nat × Cursor) :=
  match readLeb 9 p.rest with
  | .value v rest =>
    if v < 2 ^ 64 then .ok (v, ⟨p.pos + (p.rest.length - rest.length), rest⟩) else .error (badVarint p)
  | _ => .error (badVarint p)

def bytesField (p : Cursor) : Except Fault (Bytes × Cursor) := do
  let (n, p) ← varint p
  let stop := toInt (p.pos + n)
  if p.pos + p.rest.length < stop then .error (.failed "hayven-trace: bytes field overruns buffer")
  else if stop < p.pos then .error .panics
  else .ok (p.rest.take n, ⟨p.pos + n, p.rest.drop n⟩)

def fixed (n : Nat) (name : String) (p : Cursor) : Except Fault Cursor :=
  if p.rest.length < n then .error (.failed ("hayven-trace: " ++ name ++ " overruns buffer"))
  else .ok ⟨p.pos + n, p.rest.drop n⟩

/-- What a field holds; the reader does not look at fixed ones. -/
inductive Value where
  | varint (v : Nat)
  | bytes (b : Bytes)
  | fixed

def wireVarint : Nat := 0
def wireBytes : Nat := 2
def wireFixed64 : Nat := 1
def wireFixed32 : Nat := 5

/-- To `skip` a field is to read it, too. -/
def value (wire : Nat) (p : Cursor) : Except Fault (Value × Cursor) :=
  if wire = wireVarint then (varint p).map fun (v, p) => (.varint v, p)
  else if wire = wireBytes then (bytesField p).map fun (b, p) => (.bytes b, p)
  else if wire = wireFixed64 then (fixed 8 "fixed64" p).map fun p => (.fixed, p)
  else if wire = wireFixed32 then (fixed 4 "fixed32" p).map fun p => (.fixed, p)
  else .error (.failed ("hayven-trace: unknown wire type " ++ toString wire))

/-- The loop over the fields of a message, for at most `fuel` rounds. -/
def readFields {σ : Type} (onField : σ → Nat → Value → Except Fault σ) : Nat → σ → Cursor → Except Fault σ
  | 0, s, _ => .ok s
  | fuel + 1, s, p =>
    if p.rest = [] then .ok s
    else do
      let (tag, p) ← varint p
      let (v, p) ← value (tag % 8) p
      readFields onField fuel (← onField s (tag / 8) v) p

/-- Every round takes a byte, so the length is fuel enough. -/
def message {σ : Type} (onField : σ → Nat → Value → Except Fault σ) (start : σ) (msg : Bytes) : Except Fault σ :=
  readFields onField msg.length start ⟨0, msg⟩

/-! ## The messages of a profile -/

def packedFrom : Nat → Cursor → Except Fault (List Nat)
  | 0, _ => .ok []
  | fuel + 1, p =>
    if p.rest = [] then .ok []
    else do
      let (v, p) ← varint p
      return v :: (← packedFrom fuel p)

def onSample (locs : List Nat) (field : Nat) (v : Value) : Except Fault (List Nat) :=
  match field, v with
  | 1, .bytes packed => (packedFrom packed.length ⟨0, packed⟩).map (locs ++ ·)
  | 1, .varint v => .ok (locs ++ [v])
  | _, _ => .ok locs

def parseSample : Bytes → Except Fault (List Nat) := message onSample []

def parseLine : Bytes → Except Fault Nat :=
  message (fun fid field v => match field, v with
    | 1, .varint v => .ok v
    | _, _ => .ok fid) 0

def onLocation (loc : Nat × List Nat) (field : Nat) (v : Value) : Except Fault (Nat × List Nat) :=
  match field, v with
  | 1, .varint v => .ok (v, loc.2)
  | 4, .bytes lineMsg => (parseLine lineMsg).map fun fid => if fid ≠ 0 then (loc.1, loc.2 ++ [fid]) else loc
  | _, _ => .ok loc

def parseLocation : Bytes → Except Fault (Nat × List Nat) := message onLocation (0, [])

def parseFunction : Bytes → Except Fault (Nat × Int) :=
  message (fun fn field v => match field, v with
    | 1, .varint v => .ok (v, fn.2)
    | 2, .varint v => .ok (fn.1, toInt v)
    | _, _ => .ok fn) (0, -1)

structure Profile where
  strs : List Bytes
  samples : List (List Nat)
  locFuncs : KeyedMap Nat (List Nat)
  funcNames : KeyedMap Nat Int

namespace Profile

def onField (p : Profile) (field : Nat) (v : Value) : Except Fault Profile :=
  match field, v with
  | 6, .bytes s => .ok { p with strs := p.strs ++ [s] }
  | 2, .bytes msg => (parseSample msg).map fun locs => { p with samples := p.samples ++ [locs] }
  | 4, .bytes msg => (parseLocation msg).map fun loc => { p with locFuncs := p.locFuncs.set loc.1 loc.2 }
  | 5, .bytes msg => (parseFunction msg).map fun fn => { p with funcNames := p.funcNames.set fn.1 fn.2 }
  | _, _ => .ok p

def nameOf (p : Profile) (funcID : Nat) : Bytes :=
  match p.funcNames.get funcID with
  | some idx => if idx < 0 ∨ p.strs.length ≤ idx then [] else (p.strs[idx.toNat]?).getD []
  | none => []

def profileStacks (p : Profile) : List (List Bytes) :=
  (p.samples.map fun locIDs =>
    (locIDs.flatMap fun lid => ((p.locFuncs.get lid).getD []).map p.nameOf).filter (· ≠ [])).filter (2 ≤ ·.length)

end Profile

def maybeGunzip (gunzip : Bytes → Except Fault Bytes) (raw : Bytes) : Except Fault Bytes :=
  if [0x1f, 0x8b] <+: raw then gunzip raw else .ok raw

def parseProfileStacks (gunzip : Bytes → Except Fault Bytes) (raw : Bytes) : Except Fault (List (List Bytes)) := do
  let data ← maybeGunzip gunzip raw
  let p ← message Profile.onField ⟨[], [], .empty, .empty⟩ data
  return p.profileStacks

/-! ## What is written is read -/

structure Field where
  number : Nat
  value : Value

def Value.wire : Value → Nat
  | varint _ => wireVarint
  | bytes _ => wireBytes
  | fixed => wireFixed64

def Value.text : Value → Bytes
  | varint v => writeVarint v
  | bytes b => writeVarint b.length ++ b
  | fixed => List.replicate 8 0

def Field.text (f : Field) : Bytes := writeVarint (f.number * 8 + f.value.wire) ++ f.value.text

def Field.Fits (f : Field) : Prop := f.number < 2 ^ 29 ∧ ∀ v, f.value = .varint v → v < 2 ^ 64

def write (fs : List Field) : Bytes := fs.flatMap Field.text

theorem varint_write {v : Nat} (h : v < 2 ^ 64) (pos : Nat) (rest : Bytes) :
    varint ⟨pos, writeVarint v ++ rest⟩ = .ok (v, ⟨pos + (writeVarint v).length, rest⟩) := by
  have hread := readLeb_lebBytes 9 v rest (by omega)
  simp only [varint, writeVarint, hread, h, if_true, List.length_append, Nat.add_sub_cancel]

theorem writeVarint_ne_nil (v : Nat) : writeVarint v ≠ [] := by
  rw [writeVarint, lebBytes]
  split <;> exact List.cons_ne_nil _ _

theorem length_le_flatMap {α : Type} {f : α → Bytes} (h : ∀ a, f a ≠ []) (l : List α) :
    l.length ≤ (l.flatMap f).length := by
  rw [List.length_flatMap]
  have hsum := List.length_le_sum_of_one_le (l.map fun a => (f a).length)
    (List.forall_mem_map.2 fun a _ => List.length_pos_iff.2 (h a))
  rwa [List.length_map] at hsum

theorem bytesField_write (b rest : Bytes) {pos : Nat} (hlen : pos + (writeVarint b.length).length + b.length < 2 ^ 63) :
    bytesField ⟨pos, writeVarint b.length ++ b ++ rest⟩ =
      .ok (b, ⟨pos + (writeVarint b.length).length + b.length, rest⟩) := by
  have hstop : toInt (pos + (writeVarint b.length).length + b.length) =
      pos + (writeVarint b.length).length + b.length := by
    unfold toInt
    omega
  have hread := varint_write (v := b.length) (by omega) pos (b ++ rest)
  simp only [bytesField, List.append_assoc, hread, bind, Except.bind, hstop, List.length_append]
  rw [if_neg (by omega), if_neg (by omega), List.take_left, List.drop_left]

theorem value_write {f : Field} (h : f.Fits) {pos : Nat} (rest : Bytes) (hlen : pos + f.value.text.length < 2 ^ 63) :
    value f.value.wire ⟨pos, f.value.text ++ rest⟩ = .ok (f.value, ⟨pos + f.value.text.length, rest⟩) := by
  obtain ⟨number, v⟩ := f
  cases v with
  | varint v =>
    show (varint ⟨pos, writeVarint v ++ rest⟩).map _ = _
    rw [varint_write (h.2 v rfl)]
    rfl
  | bytes b =>
    simp only [Value.text, List.length_append, ← Nat.add_assoc] at hlen ⊢
    show (bytesField ⟨pos, writeVarint b.length ++ b ++ rest⟩).map _ = _
    rw [bytesField_write b rest hlen]
    rfl
  | fixed =>
    show (fixed 8 "fixed64" ⟨pos, List.replicate 8 0 ++ rest⟩).map _ = _
    rw [fixed, if_neg (by simp)]
    rfl

section Messages
variable {σ : Type} {onField : σ → Nat → Value → Except Fault σ}

theorem readFields_write {fs : List Field} (h : ∀ f ∈ fs, f.Fits) {fuel : Nat} (hfuel : fs.length ≤ fuel) (s : σ)
    {pos : Nat} (hlen : pos + (write fs).length < 2 ^ 63) :
    readFields onField fuel s ⟨pos, write fs⟩ = fs.foldlM (fun s f => onField s f.number f.value) s := by
  induction fs generalizing fuel s pos with
  | nil => cases fuel <;> rfl
  | cons f fs ih =>
    obtain ⟨fuel, rfl⟩ : ∃ k, fuel = k + 1 := ⟨fuel - 1, by rw [List.length_cons] at hfuel; omega⟩
    obtain ⟨hf, hfs⟩ := List.forall_mem_cons.1 h
    have hwire : f.value.wire < 8 := by cases f.value <;> exact of_decide_eq_true rfl
    have hnumber := hf.1
    have hcons : write (f :: fs) = writeVarint (f.number * 8 + f.value.wire) ++ (f.value.text ++ write fs) := by
      rw [write, List.flatMap_cons, Field.text, List.append_assoc]
      rfl
    rw [hcons, List.length_append, List.length_append] at hlen
    rw [readFields, hcons, if_neg (by simp [writeVarint_ne_nil]), varint_write (by omega), List.foldlM_cons]
    show (value ((f.number * 8 + f.value.wire) % 8) _ >>= _) = _
    rw [show (f.number * 8 + f.value.wire) % 8 = f.value.wire by omega, value_write hf _ (by omega)]
    show (onField s ((f.number * 8 + f.value.wire) / 8) f.value >>= _) = _
    rw [show (f.number * 8 + f.value.wire) / 8 = f.number by omega]
    exact bind_congr fun s => ih hfs (by simpa using hfuel) s (by omega)

theorem message_write {fs : List Field} (h : ∀ f ∈ fs, f.Fits) (hlen : (write fs).length < 2 ^ 63) (s : σ) :
    message onField s (write fs) = fs.foldlM (fun s f => onField s f.number f.value) s :=
  readFields_write h (length_le_flatMap (fun f => by simp [Field.text, writeVarint_ne_nil]) fs) s (by omega)

/-- Fields of which those under the numbers that are read are these, in this order. -/
@[mk_iff] structure Says (read : List Nat) (reads fs : List Field) : Prop where
  fits : ∀ f ∈ fs, f.Fits
  reads : fs.filter (·.number ∈ read) = reads

/-- A message says what the fields say that are read. -/
theorem message_reads {reads fs : List Field} {read : List Nat} (h : Says read reads fs)
    (hlen : (write fs).length < 2 ^ 63) (hskip : ∀ s n v, n ∉ read → onField s n v = .ok s) (s : σ) :
    message onField s (write fs) = reads.foldlM (fun s f => onField s f.number f.value) s := by
  rw [message_write h.fits hlen, ← h.reads]
  clear h hlen
  induction fs generalizing s with
  | nil => rfl
  | cons f fs ih =>
    rw [List.filter_cons, List.foldlM_cons]
    split
    · rw [List.foldlM_cons]
      exact bind_congr fun s => ih s
    · next hf =>
      rw [hskip s f.number f.value (by simpa using hf)]
      exact ih s

end Messages

theorem packedFrom_write {vs : List Nat} (h : ∀ v ∈ vs, v < 2 ^ 64) {fuel : Nat} (hfuel : vs.length ≤ fuel)
    (pos : Nat) : packedFrom fuel ⟨pos, vs.flatMap writeVarint⟩ = .ok vs := by
  induction vs generalizing fuel pos with
  | nil => cases fuel <;> rfl
  | cons v vs ih =>
    obtain ⟨fuel, rfl⟩ : ∃ k, fuel = k + 1 := ⟨fuel - 1, by rw [List.length_cons] at hfuel; omega⟩
    obtain ⟨hv, hvs⟩ := List.forall_mem_cons.1 h
    rw [packedFrom, List.flatMap_cons, if_neg (by simp [writeVarint_ne_nil]), varint_write hv]
    show (packedFrom fuel _ >>= fun vs => pure (v :: vs)) = _
    rw [ih hvs (by simpa using hfuel)]
    rfl

/-! ## Profiles -/

/-- An entry of a profile, with the fields of its message. A sample has its locations one by one or
packed, and a line its function. -/
inductive Entry where
  | string (s : Bytes)
  | sample (locs : List (Nat ⊕ List Nat)) (fs : List Field)
  | location (id : Nat) (lines : List (Nat × List Field)) (fs : List Field)
  | function (id name : Nat) (fs : List Field)
  | other (f : Field)

def locsField : Nat ⊕ List Nat → Field
  | .inl v => ⟨1, .varint v⟩
  | .inr vs => ⟨1, .bytes (vs.flatMap writeVarint)⟩

def locsOf (locs : List (Nat ⊕ List Nat)) : List Nat := locs.flatMap (Sum.elim ([·]) id)

def lineField (line : Nat × List Field) : Field := ⟨4, .bytes (write line.2)⟩

namespace Entry

def field : Entry → Field
  | string s => ⟨6, .bytes s⟩
  | sample _ fs => ⟨2, .bytes (write fs)⟩
  | location _ _ fs => ⟨4, .bytes (write fs)⟩
  | function _ _ fs => ⟨5, .bytes (write fs)⟩
  | other f => f

def Fits : Entry → Prop
  | string _ => True
  | sample locs fs => Says [1] (locs.map locsField) fs ∧ ∀ v ∈ locsOf locs, v < 2 ^ 64
  | location id lines fs => Says [1, 4] (⟨1, .varint id⟩ :: lines.map lineField) fs ∧
      ∀ l ∈ lines, Says [1] [⟨1, .varint l.1⟩] l.2
  | function id name fs => Says [1, 2] [⟨1, .varint id⟩, ⟨2, .varint name⟩] fs ∧ name < 2 ^ 63
  | other f => f.Fits ∧ f.number ∉ [2, 4, 5, 6]

end Entry

/-- A profile with one entry more. A line with function `0` names none. -/
def Profile.add (p : Profile) : Entry → Profile
  | .string s => { p with strs := p.strs ++ [s] }
  | .sample locs _ => { p with samples := p.samples ++ [locsOf locs] }
  | .location id lines _ => { p with locFuncs := p.locFuncs.set id ((lines.map Prod.fst).filter (· ≠ 0)) }
  | .function id name _ => { p with funcNames := p.funcNames.set id name }
  | .other _ => p

theorem length_bytes_lt {n : Nat} {b : Bytes} {fs : List Field} (h : ⟨n, .bytes b⟩ ∈ fs)
    (hlen : (write fs).length < 2 ^ 63) : b.length < 2 ^ 63 := by
  have hsub := List.Sublist.length_le (List.sublist_flatten_of_mem (List.mem_map_of_mem (f := Field.text) h))
  rw [← List.flatMap_def, Field.text, List.length_append, Value.text, List.length_append] at hsub
  exact Nat.lt_of_le_of_lt (by omega) (Nat.lt_of_le_of_lt hsub hlen)

theorem readLocs {locs : List (Nat ⊕ List Nat)} (h : ∀ v ∈ locsOf locs, v < 2 ^ 64) (got : List Nat) :
    (locs.map locsField).foldlM (fun s f => onSample s f.number f.value) got = .ok (got ++ locsOf locs) := by
  induction locs generalizing got with
  | nil => rw [locsOf, List.flatMap_nil, List.append_nil]; rfl
  | cons loc locs ih =>
    rw [locsOf, List.flatMap_cons, List.forall_mem_append] at h
    have hfirst : onSample got (locsField loc).number (locsField loc).value = .ok (got ++ Sum.elim ([·]) id loc) := by
      cases loc with
      | inl v => rfl
      | inr vs =>
        have hpacked : packedFrom (vs.flatMap writeVarint).length ⟨0, vs.flatMap writeVarint⟩ = .ok vs :=
          packedFrom_write h.1 (length_le_flatMap writeVarint_ne_nil vs) 0
        show (packedFrom _ _).map _ = _
        rw [hpacked]
        rfl
    rw [List.map_cons, List.foldlM_cons, hfirst, locsOf, List.flatMap_cons, ← List.append_assoc]
    exact ih h.2 _

theorem readLines {lines : List (Nat × List Field)} (h : ∀ l ∈ lines, Says [1] [⟨1, .varint l.1⟩] l.2)
    (hlen : ∀ l ∈ lines, (write l.2).length < 2 ^ 63) (id : Nat) (fns : List Nat) :
    (lines.map lineField).foldlM (fun s f => onLocation s f.number f.value) (id, fns) =
      .ok (id, fns ++ (lines.map Prod.fst).filter (· ≠ 0)) := by
  induction lines generalizing fns with
  | nil => rw [List.map_nil, List.map_nil, List.filter_nil, List.append_nil]; rfl
  | cons line lines ih =>
    obtain ⟨hline, h⟩ := List.forall_mem_cons.1 h
    obtain ⟨hlength, hlen⟩ := List.forall_mem_cons.1 hlen
    have hfid : parseLine (write line.2) = .ok line.1 := by
      refine (message_reads hline hlength (fun s n v hn => ?_) 0).trans rfl
      split <;> simp_all
    rw [List.map_cons, List.foldlM_cons]
    show ((parseLine (write line.2)).map _ >>= _) = _
    rw [hfid, List.map_cons, List.filter_cons]
    show List.foldlM _ (if line.1 ≠ 0 then (id, fns ++ [line.1]) else (id, fns)) _ = _
    by_cases hzero : line.1 = 0
    · simpa [hzero] using ih h hlen fns
    · simpa [hzero] using ih h hlen (fns ++ [line.1])

/-- Each entry adds what it says. -/
theorem Entry.read {e : Entry} (h : e.Fits) {fs : List Field} (he : e.field ∈ fs) (hlen : (write fs).length < 2 ^ 63)
    (p : Profile) : e.field.Fits ∧ p.onField e.field.number e.field.value = .ok (p.add e) := by
  have hbytes : ∀ {n : Nat} (b : Bytes), n < 2 ^ 29 → Field.Fits ⟨n, .bytes b⟩ := fun _ hn =>
    ⟨hn, fun _ hv => by cases hv⟩
  cases e with
  | string s => exact ⟨hbytes _ (by omega), rfl⟩
  | sample locs ms =>
    refine ⟨hbytes _ (by omega), ?_⟩
    show (parseSample (write ms)).map _ = _
    rw [parseSample, message_reads h.1 (length_bytes_lt he hlen) (fun s n v hn => ?_), readLocs h.2]
    · rfl
    · unfold onSample
      split <;> simp_all
  | location id lines ms =>
    refine ⟨hbytes _ (by omega), ?_⟩
    have hlength := length_bytes_lt he hlen
    have hlines : ∀ l ∈ lines, (write l.2).length < 2 ^ 63 := by
      intro l hl
      refine length_bytes_lt (n := 4) (List.mem_of_mem_filter (p := (·.number ∈ [1, 4])) ?_) hlength
      rw [h.1.reads]
      exact List.mem_cons_of_mem _ (List.mem_map_of_mem (f := lineField) hl)
    show (parseLocation (write ms)).map _ = _
    rw [parseLocation, message_reads h.1 hlength (fun s n v hn => ?_)]
    · show ((lines.map lineField).foldlM (fun s f => onLocation s f.number f.value) (id, [])).map _ = _
      rw [readLines h.2 hlines]
      rfl
    · unfold onLocation
      split <;> simp_all
  | function id name ms =>
    refine ⟨hbytes _ (by omega), ?_⟩
    have hsmall := h.2
    have hname : toInt name = name := by unfold toInt; omega
    show (parseFunction (write ms)).map _ = _
    rw [parseFunction, message_reads h.1 (length_bytes_lt he hlen) (fun s n v hn => ?_)]
    · show Except.ok { p with funcNames := p.funcNames.set id (toInt name) } = _
      rw [hname]
      rfl
    · split <;> simp_all
  | other f =>
    refine ⟨h.1, ?_⟩
    have hnumber := h.2
    unfold Profile.onField
    split <;> simp_all [Entry.field, Profile.add]

/-- A sample of a function in itself, in a profile with its strings last. -/
def smallProfile : List Entry :=
  [.sample [.inl 7, .inr [7]] [⟨1, .varint 7⟩, ⟨1, .bytes [7]⟩, ⟨2, .bytes [1]⟩],
    .function 1 1 [⟨1, .varint 1⟩, ⟨4, .varint 0⟩, ⟨2, .varint 1⟩],
    .location 7 [(1, [⟨1, .varint 1⟩, ⟨2, .varint 30⟩])]
      [⟨1, .varint 7⟩, ⟨3, .varint 4096⟩, ⟨4, .bytes (write [⟨1, .varint 1⟩, ⟨2, .varint 30⟩])⟩],
    .other ⟨9, .varint 5⟩, .string [], .string [97]]

example : (smallProfile.foldl Profile.add ⟨[], [], .empty, .empty⟩).profileStacks = [[[97], [97]]] := by decide

end Hayven.Trace.Go
