import Hayven.Cli.Transfers
import Hayven.Crdt.SegmentReaders
import Hayven.Lib.Runs
/-!
# Pulling a segment that grows

The loop of `pullSegment` reads a segment page by page while the peer goes on appending
to it. The peer writes a batch in pieces, and a request may be answered between any two
of them. What the pages make up splits into the first batches of the segment.
-/
open Hayven.Lib Hayven.Crdt Hayven.Daemon

namespace Hayven.Cli

/-! ## The peer -/

/-- A batch of which `writeFully` has written some bytes of the frame. -/
structure InFlight where
  batch : Bytes
  written : Nat
deriving DecidableEq

/-- The peer's log, and the batches of one segment that are on disk whole. -/
structure Peer where
  log : OpLog
  complete : List Bytes
  current : Option InFlight

namespace Peer

/-- The batches appended to the segment, the one being written included. -/
def batches (p : Peer) : List Bytes := p.complete ++ (p.current.map InFlight.batch).toList

/-- `appendBatchBytes` up to `openSync`, which creates the file. -/
def beginAppend (p : Peer) (t : Target) (batch : Bytes) (mtimeMs : Rat) : Option Peer :=
  if p.current.isSome ∨ (frameBytes batch).length > maxArrayLength then none
  else some { p with log := p.log.appendToFile t.type t.path [] mtimeMs, current := some ⟨batch, 0⟩ }

/-- One `writeSync` of `writeFully`: some of the bytes that are left, at least one. An append that
throws here is one that goes no further. -/
def writeSync (p : Peer) (t : Target) (n : Nat) (mtimeMs : Rat) : Option Peer :=
  match p.current with
  | none => none
  | some ⟨batch, written⟩ =>
    let left := (frameBytes batch).drop written
    if n = 0 ∨ n > left.length then none
    else
      let log := p.log.appendToFile t.type t.path (left.take n) mtimeMs
      if n = left.length then some ⟨log, p.complete ++ [batch], none⟩
      else some { p with log, current := some ⟨batch, written + n⟩ }

end Peer

/-! ## The loop -/

/-- The variables of the loop before a request. -/
structure PullLoop where
  i : Nat
  offset : Nat
  chunks : List Bytes
deriving DecidableEq

def PullLoop.start : PullLoop := ⟨0, 0, []⟩

inductive Pull where
  | asking (loop : PullLoop)
  | done (bytes : Bytes)
  /-- The answer was an error. -/
  | failed (status : Nat)
deriving DecidableEq

def concatBytes (chunks : List Bytes) : Bytes := chunks.flatten

/-- The rest of the loop's body, after the answer. -/
def PullLoop.answered (loop : PullLoop) : Except Nat (Bytes × Bool) → Pull
  | .error status => .failed status
  | .ok (buf, eof) =>
    let chunks := loop.chunks ++ [buf]
    if eof ∨ buf.length = 0 then .done (concatBytes chunks)
    else if loop.i + 1 < maxPages then .asking ⟨loop.i + 1, loop.offset + buf.length, chunks⟩
    else .done (concatBytes chunks)

/-! ## Both -/

structure Scene where
  peer : Peer
  pull : Pull

/-- Nothing is appended yet and nothing asked. -/
def Scene.start (log : OpLog) : Scene := ⟨⟨log, [], none⟩, .asking .start⟩

inductive PullAct where
  | beginAppend (batch : Bytes) (mtimeMs : Rat)
  | writeSync (n : Nat) (mtimeMs : Rat)
  /-- The peer answers the request. -/
  | serve

def pullStep (t : Target) (s : Scene) : PullAct → Option Scene
  | .beginAppend batch m => (s.peer.beginAppend t batch m).map fun peer => { s with peer }
  | .writeSync n m => (s.peer.writeSync t n m).map fun peer => { s with peer }
  | .serve =>
    match s.pull with
    | .asking loop =>
      some { s with pull := loop.answered (batchRoute s.peer.log t.type t.path loop.offset pageBytes) }
    | _ => none

/-- The steps in any order. -/
def PullRun (t : Target) : Scene → Scene → Prop := Run (pullStep t) fun _ _ => True

/-! ## What the peer has on disk -/

namespace Peer
variable {p p' : Peer} {t : Target}

def inFlightBytes (p : Peer) : Bytes :=
  match p.current with
  | none => []
  | some w => (frameBytes w.batch).take w.written

/-- The frames of the whole batches and the written part of the last. -/
structure Stored (p : Peer) (t : Target) : Prop where
  small : ∀ batch ∈ p.batches, batch.length < 2 ^ 32
  bytes : p.log.bytes t.type t.path = p.complete.flatMap frameBytes ++ p.inFlightBytes

/-- What a peer was before another: the bytes and the whole batches are the first of the later ones. -/
structure Grows (p p' : Peer) (t : Target) : Prop where
  bytes : p.log.bytes t.type t.path <+: p'.log.bytes t.type t.path
  complete : p.complete <+: p'.complete

theorem Grows.refl (p : Peer) (t : Target) : Grows p p t := ⟨List.prefix_rfl, List.prefix_rfl⟩

theorem Grows.trans {p'' : Peer} (h : Grows p p' t) (h' : Grows p' p'' t) : Grows p p'' t :=
  ⟨h.bytes.trans h'.bytes, h.complete.trans h'.complete⟩

theorem bytes_append_self (log : OpLog) (t : Target) (buf : Bytes) (m : Rat) :
    (log.appendToFile t.type t.path buf m).bytes t.type t.path = log.bytes t.type t.path ++ buf := by
  rw [OpLog.bytes_appendToFile, if_pos ⟨rfl, rfl⟩]

theorem beginAppend_stored {batch : Bytes} {m : Rat} (hs : p.Stored t) (h : p.beginAppend t batch m = some p') :
    p'.Stored t ∧ Grows p p' t := by
  unfold beginAppend at h
  split at h
  · cases h
  case isFalse hcan =>
    cases h
    rw [not_or, Bool.not_eq_true, Option.isSome_eq_false_iff, Option.isNone_iff_eq_none] at hcan
    obtain ⟨hnone, hlen⟩ := hcan
    have hbatch : batch.length < 2 ^ 32 := by
      have hpos := List.length_pos_iff.2 (encodeVarint_ne_nil batch.length)
      rw [frameBytes, List.length_append] at hlen
      simp only [maxArrayLength] at hlen
      omega
    have hbytes := hs.bytes
    simp only [inFlightBytes, hnone] at hbytes
    refine ⟨⟨?_, ?_⟩, ⟨?_, List.prefix_rfl⟩⟩
    · intro b hb
      simp only [batches, Option.map_some, Option.toList_some, List.mem_append, List.mem_singleton] at hb
      rcases hb with hb | rfl
      · exact hs.small b (List.mem_append_left _ hb)
      · exact hbatch
    · rw [bytes_append_self, hbytes]
      simp [inFlightBytes]
    · rw [bytes_append_self]
      exact List.prefix_append _ _

theorem writeSync_stored {n : Nat} {m : Rat} (hs : p.Stored t) (h : p.writeSync t n m = some p') :
    p'.Stored t ∧ Grows p p' t := by
  unfold writeSync at h
  cases hcur : p.current with
  | none =>
    rw [hcur] at h
    cases h
  | some w =>
    obtain ⟨batch, written⟩ := w
    have hbytes := hs.bytes
    have hsmall := hs.small
    simp only [inFlightBytes, hcur] at hbytes
    simp only [batches, hcur, Option.map_some, Option.toList_some] at hsmall
    -- the file goes on where it ended
    have hgo : (frameBytes batch).take written ++ ((frameBytes batch).drop written).take n =
        (frameBytes batch).take (written + n) := by
      rw [List.take_add]
    simp only [hcur] at h
    split at h
    · cases h
    · split at h
      case isTrue hall =>
        cases h
        have hwhole : (frameBytes batch).take (written + n) = frameBytes batch := by
          rw [List.length_drop] at hall
          apply List.take_of_length_le
          omega
        refine ⟨⟨?_, ?_⟩, ⟨?_, List.prefix_append _ _⟩⟩
        · simpa [batches] using hsmall
        · rw [bytes_append_self, hbytes, List.append_assoc, hgo, hwhole]
          simp [inFlightBytes]
        · rw [bytes_append_self]
          exact List.prefix_append _ _
      case isFalse =>
        cases h
        refine ⟨⟨?_, ?_⟩, ⟨?_, List.prefix_rfl⟩⟩
        · simpa [batches] using hsmall
        · rw [bytes_append_self, hbytes, List.append_assoc, hgo]
          rfl
        · rw [bytes_append_self]
          exact List.prefix_append _ _

/-- An append in one piece is `appendBatchBytes`. -/
theorem append_whole {batch : Bytes} {m : Rat} {log' : OpLog} (hidle : p.current = none)
    (h : p.log.appendBatchBytes t.type t.path batch m = .ok log') :
    ∃ p₁ p₂, p.beginAppend t batch m = some p₁ ∧ p₁.writeSync t (frameBytes batch).length m = some p₂ ∧
      p₂.batches = p.batches ++ [batch] ∧ p₂.current = none ∧
      ∀ type day, p₂.log.bytes type day = log'.bytes type day := by
  have hcan : ¬ (frameBytes batch).length > maxArrayLength := by
    intro hbig
    rw [OpLog.appendBatchBytes, if_pos hbig] at h
    cases h
  have hlog := (OpLog.appendBatchBytes_ok h).2
  have hne : (frameBytes batch).length ≠ 0 := fun h0 => frameBytes_ne_nil batch (List.length_eq_zero_iff.1 h0)
  let opened := p.log.appendToFile t.type t.path [] m
  refine ⟨⟨opened, p.complete, some ⟨batch, 0⟩⟩,
    ⟨opened.appendToFile t.type t.path (frameBytes batch) m, p.complete ++ [batch], none⟩, ?_, ?_, ?_, rfl, ?_⟩
  · rw [beginAppend, hidle, if_neg (by simpa using hcan)]
  · simp [writeSync, hne]
  · simp [batches, hidle]
  intro type day
  simp only [hlog, opened, OpLog.bytes_appendToFile]
  split <;> simp

theorem Stored.prefix_batches (h : p.Stored t) : p.log.bytes t.type t.path <+: p.batches.flatMap frameBytes := by
  rw [h.bytes, batches, List.flatMap_append]
  apply (List.prefix_append_right_inj _).2
  cases hcur : p.current with
  | none => simp [inFlightBytes, hcur]
  | some w =>
    simp only [inFlightBytes, hcur, Option.map_some, Option.toList_some, List.flatMap_singleton]
    exact List.take_prefix _ _

end Peer

/-- Frames split into their batches. -/
theorem split_flatMap_frameBytes {batches : List Bytes} (h : ∀ batch ∈ batches, batch.length < 2 ^ 32) :
    (split varintPrefix (batches.flatMap frameBytes)).kind = .clean ∧
      (split varintPrefix (batches.flatMap frameBytes)).bodies = batches := by
  induction batches with
  | nil => exact ⟨rfl, rfl⟩
  | cons batch rest ih =>
    obtain ⟨hkind, hbodies⟩ := ih fun b hb => h b (List.mem_cons_of_mem _ hb)
    rw [List.flatMap_cons, split_frameBytes (h batch List.mem_cons_self)]
    refine ⟨hkind, ?_⟩
    rw [Split.bodies, List.map_cons]
    exact congrArg (batch :: ·) hbodies

/-- The front of a run of frames splits into the first of the batches. -/
theorem splitSegmentBatches_front {bytes : Bytes} {batches : List Bytes}
    (hsmall : ∀ batch ∈ batches, batch.length < 2 ^ 32) (h : bytes <+: batches.flatMap frameBytes) :
    ∃ front, splitSegmentBatches bytes = some front ∧ front <+: batches := by
  obtain ⟨more, hmore⟩ := h
  obtain ⟨hkind, hbodies⟩ := split_flatMap_frameBytes hsmall
  refine ⟨(split varintPrefix bytes).bodies, splitSegmentBatches_eq_some.2 ⟨fun v hv => ?_, rfl⟩, ?_⟩
  · have hover := split_append_overlong hv more
    rw [hmore, hkind] at hover
    cases hover
  · have hmono := (split_frames_mono varintPrefix bytes more).map Frame.body
    rw [hmore] at hmono
    exact hbodies ▸ hmono

/-! ## A segment that does not grow -/

/-- How the loop ends on the bytes of the remaining pages. -/
def PullLoop.ended (loop : PullLoop) : Except Nat Bytes → Pull
  | .error status => .failed status
  | .ok bytes => .done (concatBytes loop.chunks ++ bytes)

theorem serve_pullPages (t : Target) (peer : Peer) (pages : Nat) (loop : PullLoop)
    (hleft : loop.i + (pages + 1) = maxPages) :
    PullRun t ⟨peer, .asking loop⟩ ⟨peer, loop.ended (pullPages peer.log t (pages + 1) loop.offset)⟩ := by
  induction pages generalizing loop with
  | zero =>
    apply Run.single (a := .serve) trivial
    rw [pullPages]
    cases hroute : batchRoute peer.log t.type t.path loop.offset pageBytes with
    | error status => simp [pullStep, PullLoop.answered, hroute, PullLoop.ended]
    | ok answer =>
      obtain ⟨buf, eof⟩ := answer
      have hlast : ¬ loop.i + 1 < maxPages := by omega
      simp [pullStep, PullLoop.answered, hroute, PullLoop.ended, hlast, concatBytes, pullPages, Except.map]
  | succ pages ih =>
    rw [pullPages]
    cases hroute : batchRoute peer.log t.type t.path loop.offset pageBytes with
    | error status =>
      apply Run.single (a := .serve) trivial
      simp [pullStep, PullLoop.answered, hroute, PullLoop.ended]
    | ok answer =>
      obtain ⟨buf, eof⟩ := answer
      dsimp only
      split
      case isTrue hstop =>
        apply Run.single (a := .serve) trivial
        simp only [pullStep, PullLoop.answered, hroute, if_pos hstop]
        simp [PullLoop.ended, concatBytes]
      case isFalse hgo =>
        have hmore : loop.i + 1 < maxPages := by omega
        have hnext := ih ⟨loop.i + 1, loop.offset + buf.length, loop.chunks ++ [buf]⟩ (by dsimp only; omega)
        have hserve : pullStep t ⟨peer, .asking loop⟩ .serve =
            some ⟨peer, .asking ⟨loop.i + 1, loop.offset + buf.length, loop.chunks ++ [buf]⟩⟩ := by
          simp only [pullStep, PullLoop.answered, hroute, if_neg hgo, if_pos hmore]
        have hend : ∀ rest : Except Nat Bytes,
            PullLoop.ended ⟨loop.i + 1, loop.offset + buf.length, loop.chunks ++ [buf]⟩ rest = loop.ended (rest.map (buf ++ ·)) := by
          intro rest
          cases rest <;> simp [PullLoop.ended, Except.map, concatBytes]
        rw [hend] at hnext
        exact (Run.single trivial hserve).trans hnext

/-- With no append in between, the requests come to what `pullSegment` returns. -/
theorem serve_pullSegment (t : Target) (peer : Peer) :
    PullRun t ⟨peer, .asking .start⟩ ⟨peer, PullLoop.start.ended (pullSegment peer.log t)⟩ :=
  serve_pullPages t peer (maxPages - 1) .start (by decide)

/-! ## What the loop has read -/

/-- Every page so far is full, and together they are the front of the segment. -/
structure PullLoop.Read (loop : PullLoop) (bytes : Bytes) : Prop where
  left : loop.i < maxPages
  offset : loop.offset = loop.i * pageBytes
  chunks : concatBytes loop.chunks = bytes.take loop.offset
  within : loop.offset ≤ bytes.length

/-- The front of the segment, with all that the segment had `size` bytes ago unless the pages ran out. -/
def Pull.Within (size : Nat) (bytes : Bytes) : Pull → Prop
  | .asking loop => loop.Read bytes
  | .done got => got <+: bytes ∧ (size ≤ maxPages * pageBytes → size ≤ got.length)
  | .failed _ => True

theorem PullLoop.start_read (bytes : Bytes) : PullLoop.start.Read bytes :=
  ⟨by decide, rfl, rfl, Nat.zero_le _⟩

theorem Pull.Within.mono {size : Nat} {bytes bytes' : Bytes} {pull : Pull} (h : pull.Within size bytes)
    (hle : bytes <+: bytes') : pull.Within size bytes' := by
  cases pull with
  | asking loop =>
    obtain ⟨hleft, hoffset, hchunks, hwithin⟩ := h
    refine ⟨hleft, hoffset, ?_, hwithin.trans hle.length_le⟩
    obtain ⟨more, rfl⟩ := hle
    rw [hchunks, List.take_append_of_le_length hwithin]
  | done got => exact ⟨h.1.trans hle, h.2⟩
  | failed status => trivial

/-- One answer: a page that does not reach the end is full. -/
theorem PullLoop.answered_within {log : OpLog} {t : Target} {loop : PullLoop} {size : Nat}
    (h : loop.Read (log.bytes t.type t.path)) (hsize : size ≤ (log.bytes t.type t.path).length) :
    (loop.answered (batchRoute log t.type t.path loop.offset pageBytes)).Within size (log.bytes t.type t.path) := by
  obtain ⟨hleft, hoffset, hchunks, hwithin⟩ := h
  cases hroute : batchRoute log t.type t.path loop.offset pageBytes with
  | error status => trivial
  | ok answer =>
    obtain ⟨buf, eof⟩ := answer
    obtain ⟨hbuf, heof⟩ := batchRoute_ok hroute
    have hmin : min pageBytes maxBatchResponseBytes = pageBytes := by decide
    have hpos : 0 < pageBytes := by decide
    rw [hmin] at hbuf
    have hlen := congrArg List.length hbuf
    rw [List.length_take, List.length_drop] at hlen
    have hall : concatBytes (loop.chunks ++ [buf]) = (log.bytes t.type t.path).take (loop.offset + buf.length) := by
      have hread : concatBytes (loop.chunks ++ [buf]) = concatBytes loop.chunks ++ buf := by simp [concatBytes]
      rw [hread, hchunks, List.take_add, hlen]
      congr 1
      rw [hbuf, List.take_eq_take_iff, List.length_drop]
      omega
    have hgot : (concatBytes (loop.chunks ++ [buf])).length = loop.offset + buf.length := by
      rw [hall, List.length_take]
      omega
    unfold answered
    dsimp only
    split
    case isTrue hstop =>
      refine ⟨hall ▸ List.take_prefix _ _, fun _ => ?_⟩
      -- the last page reaches the end of the segment as it is now
      have hend : (log.bytes t.type t.path).length ≤ loop.offset + buf.length := by
        rcases hstop with hend | hnone
        · exact heof.1 hend
        · omega
      rw [hgot]
      omega
    case isFalse hgo =>
      rw [not_or, heof] at hgo
      have hfull : buf.length = pageBytes := by omega
      have hwithin' : loop.offset + buf.length ≤ (log.bytes t.type t.path).length := by omega
      split
      case isTrue hi =>
        refine ⟨hi, ?_, hall, hwithin'⟩
        dsimp only
        rw [hoffset, hfull, Nat.succ_mul]
      case isFalse hi =>
        refine ⟨hall ▸ List.take_prefix _ _, fun hle => ?_⟩
        have hlast : loop.i + 1 = maxPages := by omega
        rw [hgot, hoffset, hfull, ← Nat.succ_mul, Nat.succ_eq_add_one, hlast]
        exact hle

/-! ## Runs -/

/-- The peer's disk, what it had when the peer was `old`, and the pull. -/
structure Scene.Sound (s : Scene) (t : Target) (old : Peer) : Prop where
  stored : s.peer.Stored t
  grows : old.Grows s.peer t
  pull : s.pull.Within (old.log.bytes t.type t.path).length (s.peer.log.bytes t.type t.path)

theorem pullStep_sound {t : Target} {s s' : Scene} {a : PullAct} {old : Peer} (hs : s.Sound t old)
    (h : pullStep t s a = some s') : s'.Sound t old := by
  obtain ⟨hstored, hgrows, hpull⟩ := hs
  cases a with
  | beginAppend batch m =>
    obtain ⟨peer, hpeer, rfl⟩ := Option.map_eq_some_iff.1 h
    obtain ⟨hstored', hgrows'⟩ := Peer.beginAppend_stored hstored hpeer
    exact ⟨hstored', hgrows.trans hgrows', hpull.mono hgrows'.bytes⟩
  | writeSync n m =>
    obtain ⟨peer, hpeer, rfl⟩ := Option.map_eq_some_iff.1 h
    obtain ⟨hstored', hgrows'⟩ := Peer.writeSync_stored hstored hpeer
    exact ⟨hstored', hgrows.trans hgrows', hpull.mono hgrows'.bytes⟩
  | serve =>
    dsimp only [pullStep] at h
    split at h
    case h_1 loop hasking =>
      cases h
      rw [hasking] at hpull
      exact ⟨hstored, hgrows, PullLoop.answered_within hpull hgrows.bytes.length_le⟩
    case h_2 => cases h

theorem pullRun_sound {t : Target} {s s' : Scene} {old : Peer} (hs : s.Sound t old) (h : PullRun t s s') :
    s'.Sound t old :=
  h.invariant hs fun _ _ _ hs _ hstep => pullStep_sound hs hstep

theorem start_sound {log : OpLog} {t : Target} (hnew : log.file t.type t.path = none) :
    (Scene.start log).Sound t ⟨log, [], none⟩ := by
  have hbytes : log.bytes t.type t.path = [] := by simp [OpLog.bytes, hnew]
  refine ⟨⟨?_, ?_⟩, Peer.Grows.refl _ t, PullLoop.start_read _⟩
  · simp [Scene.start, Peer.batches]
  · simpa [Scene.start, Peer.inFlightBytes] using hbytes

/-- However the appends fall between the requests, the pages split into the first batches of
the segment; while it is at most 1024 pages long, into all that were whole at the first answer. -/
theorem pulled_splits_into_prefix {t : Target} {log : OpLog} {first served last : Scene} {bytes : Bytes}
    (hnew : log.file t.type t.path = none) (hbefore : PullRun t (Scene.start log) first)
    (hunasked : first.pull = .asking .start) (hserve : pullStep t first .serve = some served)
    (hafter : PullRun t served last) (hdone : last.pull = .done bytes) :
    ∃ batches, splitSegmentBatches bytes = some batches ∧ batches <+: last.peer.batches ∧
      ((first.peer.log.bytes t.type t.path).length ≤ maxPages * pageBytes → first.peer.complete <+: batches) := by
  have hfirst := (pullRun_sound (start_sound hnew) hbefore).stored
  -- from here on, what the first answer saw is what counts
  have hstart : first.Sound t first.peer := ⟨hfirst, .refl _ t, hunasked ▸ PullLoop.start_read _⟩
  obtain ⟨hstored, hgrows, hpull⟩ := pullRun_sound (pullStep_sound hstart hserve) hafter
  rw [hdone] at hpull
  obtain ⟨hfront, hsize⟩ := hpull
  obtain ⟨batches, hsplit, hprefix⟩ := splitSegmentBatches_front hstored.small (hfront.trans hstored.prefix_batches)
  refine ⟨batches, hsplit, hprefix, fun hle => ?_⟩
  have hcover : first.peer.complete.flatMap frameBytes <+: bytes := by
    have hold : first.peer.complete.flatMap frameBytes <+: first.peer.log.bytes t.type t.path :=
      hfirst.bytes ▸ List.prefix_append _ _
    exact List.prefix_of_prefix_length_le (hold.trans hgrows.bytes) hfront (hold.length_le.trans (hsize hle))
  obtain ⟨more, hmore⟩ := hcover
  have hwhole := split_flatMap_frameBytes fun b hb => hfirst.small b (List.mem_append_left _ hb)
  have hmono := (split_frames_mono varintPrefix (first.peer.complete.flatMap frameBytes) more).map Frame.body
  rw [hmore] at hmono
  rw [splitSegmentBatches_some hsplit]
  exact hwhole.2 ▸ hmono

/-- A segment with two batches, the second of them half written at the first answer. -/
theorem pulled_splits_into_prefix_torn :
    ∃ batches : List Bytes, splitSegmentBatches [2, 7, 8, 3, 9] = some batches ∧ batches <+: [[7, 8], [9, 9, 9]] ∧
      [[7, 8]] <+: batches := by
  let t : Target := ⟨.gset, ascii "1970-01-01", []⟩
  let log := OpLog.empty
  let log₁ := log.appendToFile t.type t.path [] 1
  let log₂ := log₁.appendToFile t.type t.path [2, 7, 8] 1
  let log₃ := log₂.appendToFile t.type t.path [] 2
  let log₄ := log₃.appendToFile t.type t.path [3, 9] 2
  have hbefore : PullRun t (Scene.start log) ⟨⟨log₄, [[7, 8]], some ⟨[9, 9, 9], 2⟩⟩, .asking .start⟩ :=
    ((((Run.refl.tail (s := Scene.start log) (a := .beginAppend [7, 8] 1) trivial rfl).tail
      (a := .writeSync 3 1) trivial rfl).tail (a := .beginAppend [9, 9, 9] 2) trivial rfl).tail
      (a := .writeSync 2 2) trivial rfl)
  have hserve : pullStep t ⟨⟨log₄, [[7, 8]], some ⟨[9, 9, 9], 2⟩⟩, .asking .start⟩ .serve =
      some ⟨⟨log₄, [[7, 8]], some ⟨[9, 9, 9], 2⟩⟩, .done [2, 7, 8, 3, 9]⟩ := by
    simp only [pullStep, Option.some.injEq, Scene.mk.injEq, true_and]
    decide +kernel
  -- the rest of the second batch comes after the answer
  have hafter : PullRun t ⟨⟨log₄, [[7, 8]], some ⟨[9, 9, 9], 2⟩⟩, .done [2, 7, 8, 3, 9]⟩
      ⟨⟨log₄.appendToFile t.type t.path [9, 9] 3, [[7, 8], [9, 9, 9]], none⟩, .done [2, 7, 8, 3, 9]⟩ :=
    Run.single (a := .writeSync 2 3) trivial rfl
  obtain ⟨batches, hsplit, hprefix, hwhole⟩ := pulled_splits_into_prefix rfl hbefore rfl hserve hafter rfl
  refine ⟨batches, hsplit, hprefix, hwhole ?_⟩
  decide +kernel

end Hayven.Cli
