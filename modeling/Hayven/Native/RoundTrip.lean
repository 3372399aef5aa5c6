import Hayven.Native.Wire
import Mathlib.Data.List.Nodup
import Mathlib.Data.List.Perm.Subperm
/-!
# Round trips of the batch format

Each reader of the decoder takes the bytes that the encoder wrote for a value and
nothing of what follows. Records that the format can hold come back as they went in;
what the decoder accepts is such records, whatever bytes it read them from.
-/
open Hayven.Lib

namespace Hayven.Native

/-! ## Readers and what they read -/

/-- The reader takes exactly these bytes, in front of any others, and yields `x`. -/
def Reads {α : Type} (r : Reader α) (bytes : Bytes) (x : α) : Prop :=
  ∀ pos rest, r ⟨pos, bytes ++ rest⟩ = .ok (x, ⟨pos + bytes.length, rest⟩)

section Reads
variable {α β : Type}

theorem reads_pure (x : α) : Reads (pure x) [] x := fun _ _ => rfl

theorem reads_bind {r : Reader α} {f : α → Reader β} {a b : Bytes} {x : α} {y : β} (h : Reads r a x)
    (h' : Reads (f x) b y) : Reads (r >>= f) (a ++ b) y := by
  intro pos rest
  show (do let (v, cur) ← r ⟨pos, a ++ b ++ rest⟩; f v cur) = _
  rw [List.append_assoc, h pos (b ++ rest)]
  show f x ⟨pos + a.length, b ++ rest⟩ = _
  rw [h' _ rest, List.length_append, Nat.add_assoc]

/-- A reader that yields what another read. -/
theorem reads_map {r : Reader α} {f : α → Reader β} {a : Bytes} {x : α} {y : β} (h : Reads r a x)
    (h' : Reads (f x) [] y) : Reads (r >>= f) a y := by
  have hbind := reads_bind h h'
  rwa [List.append_nil] at hbind

theorem reads_lift {e : Except WireError α} {x : α} (h : e = .ok x) : Reads (liftM e) [] x := by
  subst h
  exact fun _ _ => rfl

theorem reads_take {n : Nat} {bytes : Bytes} (h : bytes.length = n) : Reads (take n) bytes bytes := by
  intro pos rest
  subst h
  simp [take]

/-- The one place where the offset of an error is read. -/
theorem reads_lenVarint {v : Nat} (h : v < 2 ^ 32) : Reads readLenVarint (writeVarint v) v := by
  intro pos rest
  have hread := readLeb_lebBytes 9 v rest (by omega)
  have hvarint : readVarint ⟨pos, writeVarint v ++ rest⟩ = .ok (v, ⟨pos + (writeVarint v).length, rest⟩) := by
    simp only [readVarint, writeVarint, hread, List.length_append, Nat.add_sub_cancel]
    rw [Nat.mod_eq_of_lt (by omega)]
  show (do let (v, cur) ← readVarint ⟨pos, writeVarint v ++ rest⟩
           (if v < 2 ^ 32 then pure v else throw (WireError.lengthTooLarge v pos) : Reader Nat) cur) = _
  rw [hvarint]
  show (if v < 2 ^ 32 then pure v else throw (WireError.lengthTooLarge v pos) : Reader Nat) _ = _
  rw [if_pos h]
  rfl

theorem reads_lookup {strings : List (List Char)} {i : Nat} {s : List Char} (h : strings[i]? = some s) (hi : i < 2 ^ 32) :
    Reads (lookupString strings) (writeVarint i) s := by
  refine reads_map (reads_lenVarint hi) ?_
  rw [h]
  exact reads_pure s

theorem reads_counted {unit count : Nat} {bytes : Bytes} (hlen : bytes.length = count * unit) (h : count < 2 ^ 32) :
    Reads (takeCounted unit) (writeVarint count ++ bytes) bytes :=
  reads_bind (reads_lenVarint h) (reads_take hlen)

theorem reads_repeat {r : Reader α} {enc : α → Bytes} {xs : List α} (h : ∀ x ∈ xs, Reads r (enc x) x) :
    Reads (repeatRead xs.length r) (xs.flatMap enc) xs := by
  induction xs with
  | nil => exact reads_pure []
  | cons x rest ih =>
    refine reads_bind (h x List.mem_cons_self) ?_
    exact reads_map (ih fun y hy => h y (List.mem_cons_of_mem _ hy)) (reads_pure _)

end Reads

/-! ## What the format can hold -/

/-- The fixed-size fields have their size and every length fits in a `u32`. -/
def OpRecord.FieldsFit : OpRecord → Prop
  | .lww _ contentHash body _ _ => contentHash.length = 32 ∧ body.length < 2 ^ 32
  | .gsetObserve .. => True
  | .orAdd _ _ payloadCbor _ _ => payloadCbor.length < 2 ^ 32
  | .orRemove _ observedTags _ _ => observedTags.length % tagBytes = 0 ∧ observedTags.length / tagBytes < 2 ^ 32

structure OpRecord.Fits (op : OpRecord) : Prop where
  writer : op.writer.length = writerBytes
  strings : ∀ s ∈ op.strings, (utf8Encode s).length < 2 ^ 32
  fields : op.FieldsFit

/-- A batch of such records whose two counts fit in a `u32`. -/
structure Fits (ops : List OpRecord) : Prop where
  count : ops.length < 2 ^ 32
  table : (stringTable ops).length < 2 ^ 32
  records : ∀ op ∈ ops, op.Fits

/-! ## The string table -/

theorem intern_foldl (strings table : List (List Char)) (hnd : table.Nodup) :
    (strings.foldl intern table).Nodup ∧ ∀ s, s ∈ strings.foldl intern table ↔ s ∈ table ∨ s ∈ strings := by
  induction strings generalizing table with
  | nil => exact ⟨hnd, fun s => by simp⟩
  | cons t rest ih =>
    rw [List.foldl_cons]
    by_cases ht : t ∈ table
    · rw [intern, if_pos ht]
      obtain ⟨hnd', hmem⟩ := ih table hnd
      refine ⟨hnd', fun s => ?_⟩
      rw [hmem, List.mem_cons]
      constructor
      · exact Or.imp_right Or.inr
      · rintro (hs | rfl | hs)
        · exact .inl hs
        · exact .inl ht
        · exact .inr hs
    · rw [intern, if_neg ht]
      have hnd₁ : (table ++ [t]).Nodup := by
        rw [List.nodup_append]
        exact ⟨hnd, List.nodup_singleton t, fun a ha b hb hab => ht (List.mem_singleton.1 hb ▸ hab ▸ ha)⟩
      obtain ⟨hnd', hmem⟩ := ih (table ++ [t]) hnd₁
      refine ⟨hnd', fun s => ?_⟩
      rw [hmem, List.mem_append, List.mem_singleton, List.mem_cons, or_assoc]

theorem nodup_stringTable (ops : List OpRecord) : (stringTable ops).Nodup :=
  (intern_foldl (ops.flatMap OpRecord.strings) [] List.nodup_nil).1

theorem mem_stringTable {ops : List OpRecord} {s : List Char} :
    s ∈ stringTable ops ↔ ∃ op ∈ ops, s ∈ op.strings := by
  rw [stringTable, (intern_foldl (ops.flatMap OpRecord.strings) [] List.nodup_nil).2, List.mem_flatMap]
  simp

/-- An interned string is found under its index. -/
theorem reads_interned {table : List (List Char)} (htable : table.length < 2 ^ 32) {s : List Char} (h : s ∈ table) :
    Reads (lookupString table) (writeVarint (table.idxOf s)) s := by
  have hlt := List.idxOf_lt_length_iff.2 h
  refine reads_lookup ?_ (hlt.trans htable)
  rw [List.getElem?_eq_getElem hlt, List.getElem_idxOf hlt]

/-! ## Records -/

theorem decodeHlc_encodeHlc (hlc : HlcWire) : decodeHlc (encodeHlc hlc) = .ok hlc := by
  have hwall : (beBytes 8 hlc.wallMs.toNat).length = 8 := length_beBytes 8 _
  have hcounter : (beBytes 2 hlc.counter.toNat).length = 2 := length_beBytes 2 _
  have h10 : (encodeHlc hlc).drop 10 = [0, 0] := by
    rw [encodeHlc, List.drop_append_of_le_length (by simp)]
    simp
  have h8 : (encodeHlc hlc).take 8 = beBytes 8 hlc.wallMs.toNat := by
    rw [encodeHlc, List.append_assoc, List.take_append_of_le_length (by simp), List.take_of_length_le (by simp)]
  have h2 : ((encodeHlc hlc).drop 8).take 2 = beBytes 2 hlc.counter.toNat := by
    rw [encodeHlc, List.append_assoc, List.drop_append_of_le_length (by simp), List.drop_of_length_le (by simp),
      List.nil_append, List.take_append_of_le_length (by simp), List.take_of_length_le (by simp)]
  have hw := hlc.wallMs.toNat_lt
  have hc := hlc.counter.toNat_lt
  rw [decodeHlc, h10, h8, h2, if_neg (by decide), ofBe_beBytes, ofBe_beBytes, Nat.mod_eq_of_lt (by omega),
    Nat.mod_eq_of_lt (by omega)]
  simp

theorem length_encodeHlc (hlc : HlcWire) : (encodeHlc hlc).length = hlcBytes := by
  simp [encodeHlc, hlcBytes]

/-- Kind, clock and writer, which all records start with. -/
theorem reads_head {f : Bytes → HlcWire → Bytes → Reader OpRecord} {kind : UInt8} {hlc : HlcWire} {writer fields : Bytes}
    {op : OpRecord} (hwriter : writer.length = writerBytes) (h : Reads (f [kind] hlc writer) fields op) :
    Reads (do
      let kind ← take 1
      let hlc ← decodeHlc (← take hlcBytes)
      let writer ← take writerBytes
      f kind hlc writer) (kind :: encodeHlc hlc ++ writer ++ fields) op := by
  have hbytes : kind :: encodeHlc hlc ++ writer ++ fields = [kind] ++ (encodeHlc hlc ++ ([] ++ (writer ++ fields))) := by
    simp
  rw [hbytes]
  refine reads_bind (reads_take rfl) ?_
  refine reads_bind (reads_take (length_encodeHlc hlc)) ?_
  refine reads_bind (reads_lift (decodeHlc_encodeHlc hlc)) ?_
  exact reads_bind (reads_take hwriter) h

section Records
variable {table : List (List Char)} (htable : table.length < 2 ^ 32)
include htable

/-- A record that fits is written, and read back. -/
theorem encodeOp_reads {op : OpRecord} (h : op.Fits) (hmem : ∀ s ∈ op.strings, s ∈ table) :
    ∃ bytes, encodeOp table op = .ok bytes ∧ Reads (decodeOp table) bytes op := by
  obtain ⟨hwriter, -, hfields⟩ := h
  unfold encodeOp
  rw [if_neg (not_not.2 hwriter)]
  unfold decodeOp
  cases op with
  | lww entityId contentHash body hlc writer =>
    obtain ⟨hhash, hbody⟩ := hfields
    simp only [encodeFields, hhash, ne_eq, not_true_eq_false, if_false]
    refine ⟨_, rfl, reads_head hwriter ?_⟩
    rw [List.append_assoc, List.append_assoc]
    refine reads_bind (reads_interned htable (hmem entityId (by simp [OpRecord.strings]))) ?_
    refine reads_bind (reads_take hhash) ?_
    exact reads_map (reads_counted (Nat.mul_one _).symm hbody) (reads_pure _)
  | gsetObserve src dst tsBucket observed weight hlc writer =>
    simp only [encodeFields]
    refine ⟨_, rfl, reads_head hwriter ?_⟩
    rw [List.append_assoc, List.append_assoc, List.append_assoc]
    refine reads_bind (reads_interned htable (hmem src (by simp [OpRecord.strings]))) ?_
    refine reads_bind (reads_interned htable (hmem dst (by simp [OpRecord.strings]))) ?_
    refine reads_bind (reads_take (length_beBytes 4 _)) ?_
    refine reads_bind (reads_take (length_beBytes 2 _)) ?_
    refine reads_map (reads_take (length_beBytes 2 _)) ?_
    have hts := tsBucket.toNat_lt
    have hobserved := observed.toNat_lt
    have hweight := weight.toNat_lt
    rw [ofBe_beBytes, ofBe_beBytes, ofBe_beBytes, Nat.mod_eq_of_lt (by omega), Nat.mod_eq_of_lt (by omega),
      Nat.mod_eq_of_lt (by omega)]
    have hts' : tsBucket.toNat.toUInt32 = tsBucket := by simp
    have hobserved' : observed.toNat.toUInt16 = observed := by simp
    have hweight' : weight.toNat.toUInt16 = weight := by simp
    rw [hts', hobserved', hweight']
    exact reads_pure _
  | orAdd claimId agent payloadCbor hlc writer =>
    simp only [encodeFields]
    refine ⟨_, rfl, reads_head hwriter ?_⟩
    rw [List.append_assoc, List.append_assoc]
    refine reads_bind (reads_interned htable (hmem claimId (by simp [OpRecord.strings]))) ?_
    refine reads_bind (reads_interned htable (hmem agent (by simp [OpRecord.strings]))) ?_
    exact reads_map (reads_counted (Nat.mul_one _).symm hfields) (reads_pure _)
  | orRemove claimId observedTags hlc writer =>
    obtain ⟨hwhole, hcount⟩ := hfields
    simp only [encodeFields, hwhole, ne_eq, not_true_eq_false, if_false]
    refine ⟨_, rfl, reads_head hwriter ?_⟩
    rw [List.append_assoc]
    refine reads_bind (reads_interned htable (hmem claimId (by simp [OpRecord.strings]))) ?_
    have htags := Nat.div_mul_cancel (Nat.dvd_of_mod_eq_zero hwhole)
    exact reads_map (reads_counted htags.symm hcount) (reads_pure _)

theorem encodeOps_reads {ops : List OpRecord} (h : ∀ op ∈ ops, op.Fits)
    (hmem : ∀ op ∈ ops, ∀ s ∈ op.strings, s ∈ table) : ∃ records, ops.mapM (encodeOp table) = .ok records ∧
      Reads (repeatRead ops.length (decodeOp table)) records.flatten ops := by
  induction ops with
  | nil => exact ⟨[], rfl, reads_pure []⟩
  | cons op rest ih =>
    obtain ⟨bytes, hbytes, hreads⟩ := encodeOp_reads htable (h op List.mem_cons_self) (hmem op List.mem_cons_self)
    obtain ⟨records, hrecords, hrest⟩ := ih (fun o ho => h o (List.mem_cons_of_mem _ ho))
      fun o ho => hmem o (List.mem_cons_of_mem _ ho)
    refine ⟨bytes :: records, ?_, ?_⟩
    · rw [List.mapM_cons, hbytes, hrecords]
      rfl
    · exact reads_bind hreads (reads_map hrest (reads_pure _))

end Records

/-! ## Batches -/

theorem reads_string {s : List Char} (h : (utf8Encode s).length < 2 ^ 32) : Reads decodeString (encodeString s) s := by
  refine reads_map (reads_counted (Nat.mul_one _).symm h) ?_
  rw [utf8DecodeStrict_encode]
  exact reads_pure s

/-- An envelope of records that fit is read back. -/
theorem encodeEnvelope_reads {ops : List OpRecord} (h : Fits ops) :
    ∃ buf, encodeEnvelope ops = .ok buf ∧ Reads decodeEnvelope buf ops := by
  have hmem : ∀ op ∈ ops, ∀ s ∈ op.strings, s ∈ stringTable ops := fun op hop s hs =>
    mem_stringTable.2 ⟨op, hop, hs⟩
  obtain ⟨records, hrecords, hreads⟩ := encodeOps_reads h.table h.records hmem
  refine ⟨magic ++ writeVarint ops.length ++ writeVarint (stringTable ops).length ++
    (stringTable ops).flatMap encodeString ++ records.flatten, ?_, ?_⟩
  · simp only [encodeEnvelope, hrecords]
    rfl
  · rw [List.append_assoc, List.append_assoc, List.append_assoc]
    unfold decodeEnvelope
    refine reads_bind (reads_take rfl) ?_
    rw [if_neg (by decide)]
    refine reads_bind (reads_lenVarint h.count) ?_
    refine reads_bind (reads_lenVarint h.table) ?_
    refine reads_bind (reads_repeat fun s hs => ?_) hreads
    obtain ⟨op, hop, hs⟩ := mem_stringTable.1 hs
    exact reads_string ((h.records op hop).strings s hs)

/-- A batch of records that fit is written, raw or compressed, and decodes to them. -/
theorem decodeBatch_encodeBatch {brotli : Brotli} (hbrotli : ∀ b, brotli.decompress (brotli.compress b) = some b)
    {ops : List OpRecord} (h : Fits ops) :
    ∃ bytes, encodeBatch brotli ops = .ok bytes ∧ decodeBatch brotli bytes = .ok ops := by
  obtain ⟨buf, hbuf, hreads⟩ := encodeEnvelope_reads h
  have hdecode : (decodeEnvelope ⟨0, buf⟩).map Prod.fst = .ok ops := by
    have hall := hreads 0 []
    rw [List.append_nil] at hall
    rw [hall]
    rfl
  have hraw : decodeBatch brotli (rawMarker :: buf) = .ok ops := by
    simp only [decodeBatch, if_true, hdecode]
  have hcompressed : decodeBatch brotli (brotliMarker :: brotli.compress buf) = .ok ops := by
    have hne : brotliMarker ≠ rawMarker := by decide
    simp only [decodeBatch, hne, if_false, if_true, hbrotli, hdecode]
  have hcases : encodeBatch brotli ops = .ok (rawMarker :: buf) ∨
      encodeBatch brotli ops = .ok (brotliMarker :: brotli.compress buf) := by
    simp only [encodeBatch, hbuf, bind, Except.bind, pure, Except.pure]
    split
    · exact .inl rfl
    · split
      · exact .inl rfl
      · exact .inr rfl
  rcases hcases with hok | hok
  · exact ⟨_, hok, hraw⟩
  · exact ⟨_, hok, hcompressed⟩

/-! ## What the decoder accepts -/

/-- Whatever the reader yields satisfies `P`. -/
def Yields {α : Type} (r : Reader α) (P : α → Prop) : Prop := ∀ cur x cur', r cur = .ok (x, cur') → P x

section Yields
variable {α β : Type}

theorem yields_pure {x : α} {P : α → Prop} (h : P x) : Yields (pure x) P := by
  intro cur y cur' heq
  cases heq
  exact h

theorem yields_bind {r : Reader α} {f : α → Reader β} {P : α → Prop} {Q : β → Prop} (h : Yields r P)
    (h' : ∀ x, P x → Yields (f x) Q) : Yields (r >>= f) Q := by
  intro cur y cur' heq
  have hrun : (do let (v, c) ← r cur; f v c) = .ok (y, cur') := heq
  cases hr : r cur with
  | error e =>
    rw [hr] at hrun
    cases hrun
  | ok p =>
    rw [hr] at hrun
    exact h' p.1 (h cur p.1 p.2 hr) p.2 y cur' hrun

theorem yields_throw {e : WireError} {P : α → Prop} : Yields (throw e) P := nofun

theorem yields_any (r : Reader α) : Yields r fun _ => True := fun _ _ _ _ => trivial

theorem yields_take (n : Nat) : Yields (take n) fun bytes => bytes.length = n := by
  intro cur x cur' heq
  unfold take at heq
  split at heq
  · cases heq
  case isFalse hle =>
    cases heq
    rw [List.length_take]
    omega

theorem yields_lenVarint : Yields readLenVarint (· < 2 ^ 32) := by
  refine yields_bind (yields_any _) fun start _ => yields_bind (yields_any _) fun v _ => ?_
  split
  case isTrue h => exact yields_pure h
  case isFalse => exact yields_throw

theorem yields_lookup (strings : List (List Char)) : Yields (lookupString strings) (· ∈ strings) := by
  refine yields_bind (yields_any _) fun i _ => ?_
  cases h : strings[i]? with
  | none => exact yields_throw
  | some s => exact yields_pure (List.mem_of_getElem? h)

theorem yields_counted (unit : Nat) : Yields (takeCounted unit) fun bytes => ∃ count < 2 ^ 32, bytes.length = count * unit :=
  yields_bind yields_lenVarint fun count hcount cur x cur' heq =>
    ⟨count, hcount, yields_take (count * unit) cur x cur' heq⟩

theorem yields_repeat {r : Reader α} {P : α → Prop} (h : Yields r P) (n : Nat) :
    Yields (repeatRead n r) fun xs => xs.length = n ∧ ∀ x ∈ xs, P x := by
  induction n with
  | zero => exact yields_pure ⟨rfl, nofun⟩
  | succ n ih =>
    refine yields_bind h fun x hx => yields_bind ih fun xs ⟨hlen, hxs⟩ => yields_pure ⟨?_, ?_⟩
    · rw [List.length_cons, hlen]
    · exact List.forall_mem_cons.2 ⟨hx, hxs⟩

theorem yields_string : Yields decodeString fun s => (utf8Encode s).length < 2 ^ 32 := by
  refine yields_bind (yields_counted 1) fun bytes ⟨count, hcount, hlen⟩ => ?_
  cases hdec : utf8DecodeStrict bytes with
  | none => exact yields_throw
  | some s =>
    have hle := length_utf8Encode_le hdec
    exact yields_pure (by omega)

/-- A record has sizes that fit and strings of the table. -/
theorem yields_op (strings : List (List Char)) : Yields (decodeOp strings) fun op =>
    op.writer.length = writerBytes ∧ op.FieldsFit ∧ ∀ s ∈ op.strings, s ∈ strings := by
  unfold decodeOp
  refine yields_bind (yields_any _) fun kind _ => ?_
  refine yields_bind (yields_any _) fun bytes _ => yields_bind (yields_any _) fun hlc _ => ?_
  refine yields_bind (yields_take writerBytes) fun writer hwriter => ?_
  split
  · refine yields_bind (yields_lookup strings) fun entityId hentity => ?_
    refine yields_bind (yields_take 32) fun contentHash hhash => ?_
    refine yields_bind (yields_counted 1) fun body ⟨count, hcount, hbody⟩ => yields_pure ⟨hwriter, ?_, ?_⟩
    · exact ⟨hhash, by omega⟩
    · simpa [OpRecord.strings] using hentity
  · refine yields_bind (yields_lookup strings) fun src hsrc => ?_
    refine yields_bind (yields_lookup strings) fun dst hdst => ?_
    refine yields_bind (yields_any _) fun tsBucket _ => yields_bind (yields_any _) fun observed _ => ?_
    refine yields_bind (yields_any _) fun weight _ => yields_pure ⟨hwriter, trivial, ?_⟩
    simpa [OpRecord.strings] using ⟨hsrc, hdst⟩
  · refine yields_bind (yields_lookup strings) fun claimId hclaim => ?_
    refine yields_bind (yields_lookup strings) fun agent hagent => ?_
    refine yields_bind (yields_counted 1) fun payload ⟨count, hcount, hlen⟩ => yields_pure ⟨hwriter, ?_, ?_⟩
    · show payload.length < 2 ^ 32
      omega
    · simpa [OpRecord.strings] using ⟨hclaim, hagent⟩
  · refine yields_bind (yields_lookup strings) fun claimId hclaim => ?_
    refine yields_bind (yields_counted tagBytes) fun tags ⟨count, hcount, hlen⟩ => yields_pure ⟨hwriter, ?_, ?_⟩
    · have hpos : 0 < tagBytes := by decide
      refine ⟨?_, ?_⟩
      · rw [hlen, Nat.mul_mod_left]
      · rw [hlen, Nat.mul_div_cancel count hpos]
        exact hcount
    · simpa [OpRecord.strings] using hclaim
  · exact yields_throw

/-- The strings of the records are among those of the table that was read, so the encoder's
table is no longer. -/
theorem yields_envelope : Yields decodeEnvelope Fits := by
  unfold decodeEnvelope
  refine yields_bind (yields_any _) fun found _ => ?_
  split
  · exact yields_throw
  refine yields_bind yields_lenVarint fun opCount hopCount => yields_bind yields_lenVarint fun stCount hstCount => ?_
  refine yields_bind (yields_repeat yields_string stCount) fun strings ⟨hlen, hstrings⟩ => ?_
  intro cur ops cur' heq
  obtain ⟨hcount, hops⟩ := yields_repeat (yields_op strings) opCount cur ops cur' heq
  refine ⟨by omega, ?_, fun op hop => ⟨(hops op hop).1, fun s hs => ?_, (hops op hop).2.1⟩⟩
  · have hsub : stringTable ops ⊆ strings := by
      intro s hs
      obtain ⟨op, hop, hs⟩ := mem_stringTable.1 hs
      exact (hops op hop).2.2 s hs
    have hle := ((nodup_stringTable ops).subperm hsub).length_le
    omega
  · exact hstrings s ((hops op hop).2.2 s hs)

end Yields

/-- Whatever the decoder accepts is records that fit. -/
theorem fits_of_decodeBatch {brotli : Brotli} {bytes : Bytes} {ops : List OpRecord}
    (h : decodeBatch brotli bytes = .ok ops) : Fits ops := by
  have henvelope : ∀ body, (decodeEnvelope ⟨0, body⟩).map Prod.fst = .ok ops → Fits ops := by
    intro body hok
    cases hrun : decodeEnvelope ⟨0, body⟩ with
    | error e =>
      rw [hrun] at hok
      cases hok
    | ok p =>
      rw [hrun] at hok
      cases hok
      exact yields_envelope ⟨0, body⟩ p.1 p.2 hrun
  unfold decodeBatch at h
  split at h
  · cases h
  · split at h
    · exact henvelope _ h
    · split at h
      · split at h
        · cases h
        · exact henvelope _ h
      · cases h

/-- Records that fit survive the trip, and what the decoder accepts can be encoded and decodes to
the same records again, whatever bytes it came from. -/
theorem batch_round_trip {brotli : Brotli} (hbrotli : ∀ b, brotli.decompress (brotli.compress b) = some b) :
    (∀ ops, Fits ops → ∃ bytes, encodeBatch brotli ops = .ok bytes ∧ decodeBatch brotli bytes = .ok ops) ∧
      ∀ bytes ops, decodeBatch brotli bytes = .ok ops →
        ∃ bytes', encodeBatch brotli ops = .ok bytes' ∧ decodeBatch brotli bytes' = .ok ops :=
  ⟨fun _ h => decodeBatch_encodeBatch hbrotli h,
    fun _ _ h => decodeBatch_encodeBatch hbrotli (fits_of_decodeBatch h)⟩

/-- A release of two tags; the batch is short, so it is never compressed. -/
def sampleRelease : OpRecord := .orRemove ['c'] (List.replicate 28 1) ⟨5, 0⟩ (List.replicate 16 7)

theorem batch_round_trip_release :
    (encodeBatch ⟨id, some⟩ [sampleRelease, sampleRelease]).bind (decodeBatch ⟨id, some⟩) =
      .ok [sampleRelease, sampleRelease] := by
  have htags : (28 : Nat) % tagBytes = 0 ∧ 28 / tagBytes < 2 ^ 32 := by decide
  have hrecord : sampleRelease.Fits := ⟨rfl, by decide, htags⟩
  have hfits : Fits [sampleRelease, sampleRelease] := by
    refine ⟨by decide, by decide, fun op hop => ?_⟩
    simp only [List.mem_cons, List.not_mem_nil, or_false, or_self] at hop
    exact hop ▸ hrecord
  obtain ⟨bytes, hencode, hdecode⟩ := (@batch_round_trip ⟨id, some⟩ fun _ => rfl).1 _ hfits
  rw [hencode]
  exact hdecode

end Hayven.Native
