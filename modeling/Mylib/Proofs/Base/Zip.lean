import Mylib.Proofs.Base.StoredBlocks

/-!
# `Mylib.Proofs.Base.Zip`: messages through one stream

A message that is compressed comes out as all that zlib has to write for it (`zipData_sync`).
`UnZip` makes its buffer larger until all that is owed is written; then the running totals
differ by the length of the message (`unZip_run`). So encoder and decoder stay in step, and
messages that are all compressed come back (`compressed_round_trip`).

A message that is not compressed goes out as it is, past both streams, and `UnZipData` inflates
it all the same (`stored_not_returned`).
-/

set_option autoImplicit false

namespace Mylib.Proofs.Base.Zip

open Mylib.Proofs.Base.StoredBlocks
open Mylib.Spec.Base (Str)
open Mylib.Spec.Base.Zip

variable {z : Zlib} (manual : z.Manual)

/-- A length below 2 ^ 32 survives the cast to `uInt`. -/
theorem uInt_of_lt {n : ℕ} (h : n < 2 ^ 32) : uInt n = n := Nat.mod_eq_of_lt h

/-- A total that grew by `n`, less what it was. -/
theorem toNat_add_sub {n : ℕ} (h : n < 2 ^ 32) (total : UInt64) :
    (total + UInt64.ofNat n - total).toNat = n := by
  rw [UInt64.add_comm, UInt64.add_sub_cancel, UInt64.toNat_ofNat_of_lt']
  exact h.trans (by decide)

/-! ### `ZipData` -/

/-- The stream of the encoder, which may not be made yet, and the total of the last message. -/
def EncoderAt (m : MZip z) (d : z.Deflater) : Prop :=
  ∃ total, m.openStream = (zOk, { state := d, totalOut := total }, total)

/-- A new object starts with a new stream. -/
theorem encoderAt_new (h : z.deflateInit.1 = zOk) : EncoderAt (MZip.new z) z.deflateInit.2 := by
  refine ⟨0, ?_⟩
  show (z.deflateInit.1, _, if z.deflateInit.1 = zOk then _ else _) = _
  rw [h, if_pos rfl]

/-- A message that is compressed, into less than its length and 300 bytes. Where it fills that room
exactly, what was written can be all there is, but the manual lets `deflate` have more pending then,
and the code does not ask. -/
structure Compresses (d : z.Deflater) (bEnable : Bool) (message : Str) : Prop where
  enabled : bEnable = true
  long : encodeZlibMinCompSize ≤ message.length
  short : message.length + 300 < 2 ^ 32
  fits : (manual.sync d message).length < message.length + 300

variable {manual}

/-- An empty message is refused. -/
theorem Compresses.ne_nil {d : z.Deflater} {bEnable : Bool} {message : Str}
    (h : Compresses manual d bEnable message) : message ≠ [] := by
  rintro rfl
  exact absurd h.long (by decide)

/-- `ZipData` of such a message gives all that zlib has to write for it. -/
theorem zipData_sync {m : MZip z} {d : z.Deflater} (hm : EncoderAt m d) {bEnable : Bool}
    {message : Str} (h : Compresses manual d bEnable message) :
    ∃ m', (m.enableCompress bEnable).zipData message = (manual.sync d message, m') ∧
      EncoderAt m' (manual.after d message) := by
  obtain ⟨total, hopen⟩ := hm
  have hopen' : (m.enableCompress bEnable).openStream
      = (zOk, { state := d, totalOut := total }, total) := hopen
  have hdeflate : z.deflate d (message.take (uInt message.length)) (uInt (message.length + 300))
      = ⟨zOk, 0, manual.sync d message, manual.after d message⟩ := by
    rw [uInt_of_lt h.short, uInt_of_lt (by have := h.short; omega), List.take_length]
    exact manual.deflate_sync d message _ h.ne_nil h.fits
  have hlength : (total + UInt64.ofNat (manual.sync d message).length - total).toNat
      = (manual.sync d message).length :=
    toNat_add_sub (h.fits.trans h.short) total
  have hpos : message.length ≠ 0 := fun hzero => h.ne_nil (List.eq_nil_of_length_eq_zero hzero)
  have henabled : (m.enableCompress bEnable).bCompress = true := h.enabled
  -- The encoder behind the message: its total is that of the stream.
  let m' : MZip z :=
    { zlibStream := some
        { state := manual.after d message
          totalOut := total + UInt64.ofNat (manual.sync d message).length }
      ulTotalZipLen := total + UInt64.ofNat (manual.sync d message).length
      bCompress := true }
  have hzip : (m.enableCompress bEnable).zip message (message.length + 300)
      = (zOk, manual.sync d message, (manual.sync d message).length, m') := by
    simp only [MZip.zip, hopen', hdeflate, ne_eq, not_true_eq_false, if_false, if_true, hlength,
      henabled, m']
  refine ⟨m', ?_, _, rfl⟩
  rw [MZip.zipData, if_neg hpos, if_neg (by rw [henabled]; decide), if_neg h.long.not_gt, hzip]
  show (if zOk ≠ zOk then _ else ((manual.sync d message).take (manual.sync d message).length, m'))
    = _
  rw [if_neg (not_not_intro rfl), List.take_length]

/-! ### `UnZipData` -/

/-- The stream of the decoder is in step with the encoder, and its total is that of the last
message. -/
def DecoderAt (manual : z.Manual) (m : MUnZip z) (d : z.Deflater) : Prop :=
  ∀ ulUnZipLen, ∃ stream, m.openStream ulUnZipLen = (zOk, stream, stream.totalOut) ∧
    manual.InStep d stream.state

/-- A new decoder is in step with a new encoder. -/
theorem decoderAt_new : DecoderAt manual (MUnZip.new z) z.deflateInit.2 := by
  intro ulUnZipLen
  refine ⟨{ state := z.inflateInit.2, nextOut := 0, availOut := uInt ulUnZipLen, totalOut := 0 },
    ?_, manual.inStep_init⟩
  show (z.inflateInit.1, _, if z.inflateInit.1 = zOk then _ else _) = _
  rw [manual.inflateInit_ok, if_pos rfl]

/-- `UnZip` is called while `data` is in the buffer and `rest` is owed. -/
structure Unzipping (manual : z.Manual) (d : z.Deflater) (m : MUnZip z)
    (pZipData data rest : Str) (ulUnZipLen iRecursion : ℕ) (stream : InflateStream z)
    (unZipLen : UInt64) : Prop where
  opened : m.openStream ulUnZipLen = (zOk, stream, unZipLen)
  output : stream.setOutput ulUnZipLen iRecursion
    = { stream with nextOut := data.length, availOut := ulUnZipLen - data.length }
  total : stream.totalOut = unZipLen + UInt64.ofNat data.length
  owes : manual.Owes stream.state pZipData rest d
  room : data.length < ulUnZipLen
  input_lt : pZipData.length < 2 ^ 32
  length_lt : data.length + rest.length < 2 ^ 32
  size_lt : ulUnZipLen < 2 ^ 34

section
variable {d : z.Deflater} {m : MUnZip z} {pZipData data rest : Str} {ulUnZipLen iRecursion : ℕ}
  {stream : InflateStream z} {unZipLen : UInt64}

/-- All of the input is passed to `inflate`. -/
theorem Unzipping.input (h : Unzipping manual d m pZipData data rest ulUnZipLen iRecursion stream
    unZipLen) : pZipData.take (uInt pZipData.length) = pZipData := by
  rw [uInt_of_lt h.input_lt, List.take_length]

/-- The total that is counted over the rounds. -/
theorem Unzipping.total_add (h : Unzipping manual d m pZipData data rest ulUnZipLen iRecursion
    stream unZipLen) (n : ℕ) : stream.totalOut + UInt64.ofNat n
      = unZipLen + UInt64.ofNat (data.length + n) := by
  rw [h.total, UInt64.add_assoc, UInt64.ofNat_add]

/-- The last call: all that is owed is written. -/
theorem Unzipping.done (h : Unzipping manual d m pZipData data rest ulUnZipLen iRecursion stream
    unZipLen) (fuel : ℕ)
    (hread : (z.inflate stream.state pZipData (ulUnZipLen - data.length)).availIn = 0)
    (hfits : rest.length ≤ ulUnZipLen - data.length)
    (hstep : manual.InStep d
      (z.inflate stream.state pZipData (ulUnZipLen - data.length)).next) :
    ∃ m', m.unZip (fuel + 1) pZipData data ulUnZipLen iRecursion
        = some (zOk, data ++ rest, data.length + rest.length, m') ∧ DecoderAt manual m' d := by
  have hroom : 0 < ulUnZipLen - data.length := Nat.sub_pos_of_lt h.room
  obtain ⟨herr, hwritten, -⟩ := manual.inflate_owes _ _ _ _ _ h.owes hroom
  simp only [MUnZip.unZip, h.opened, h.output, h.input, herr, hwritten, h.total_add, ne_eq,
    not_true_eq_false, if_false, true_and, List.take_length]
  -- The rest fits, so it is not the branch for a full buffer, even where none is left.
  rw [List.take_of_length_le hfits, if_neg fun hleft => hleft.2 hread, if_pos hread,
    toNat_add_sub h.length_lt]
  exact ⟨_, rfl, fun _ => ⟨_, rfl, hstep⟩⟩

/-- The stream of the next call, after the buffer was made twice as large. -/
def grown (stream : InflateStream z) (unZipLen : UInt64) (pZipData : Str)
    (length ulUnZipLen : ℕ) : InflateStream z :=
  { state := (z.inflate stream.state pZipData (ulUnZipLen - length)).next
    nextOut := ulUnZipLen
    availOut := ulUnZipLen
    totalOut := unZipLen + UInt64.ofNat ulUnZipLen }

/-- A call that fills its buffer: another one, with a larger buffer and less to do. -/
theorem Unzipping.full (h : Unzipping manual d m pZipData data rest ulUnZipLen iRecursion stream
    unZipLen) (fuel : ℕ) {left : ℕ}
    (hleft : (z.inflate stream.state pZipData (ulUnZipLen - data.length)).availIn = left)
    (hne : left ≠ 0) (hfull : ulUnZipLen - data.length ≤ rest.length)
    (howes : manual.Owes (z.inflate stream.state pZipData (ulUnZipLen - data.length)).next
      (pZipData.drop (pZipData.length - left)) (rest.drop (ulUnZipLen - data.length)) d) :
    let stream' := grown stream unZipLen pZipData data.length ulUnZipLen
    let m' : MUnZip z := { zlibStream := some stream', unZipLen }
    let data' := data ++ rest.take (ulUnZipLen - data.length)
    m.unZip (fuel + 1) pZipData data ulUnZipLen iRecursion
        = m'.unZip fuel (pZipData.drop (pZipData.length - left)) data' (ulUnZipLen * 2)
            (iRecursion + 1) ∧
      Unzipping manual d m' (pZipData.drop (pZipData.length - left)) data'
        (rest.drop (ulUnZipLen - data.length)) (ulUnZipLen * 2) (iRecursion + 1) stream'
        unZipLen := by
  intro stream' m' data'
  have hroom := h.room
  have hsize := h.size_lt
  have hsum := h.length_lt
  have hinput := h.input_lt
  obtain ⟨herr, hwritten, -⟩ :=
    manual.inflate_owes _ _ _ _ (ulUnZipLen - data.length) h.owes (Nat.sub_pos_of_lt hroom)
  have hwrites : (rest.take (ulUnZipLen - data.length)).length = ulUnZipLen - data.length :=
    List.length_take_of_le hfull
  have hdata : data'.length = ulUnZipLen := by
    rw [List.length_append, hwrites]
    omega
  constructor
  · -- What was produced since the last message fills the old buffer: it is copied, and the new
    -- one has as much room again.
    have hlength : data.length + (ulUnZipLen - data.length) = ulUnZipLen := by omega
    have hdouble : ulUnZipLen * 2 % 2 ^ 64 = ulUnZipLen * 2 := Nat.mod_eq_of_lt (by omega)
    have hroom' : uInt (ulUnZipLen * 2 - ulUnZipLen) = ulUnZipLen := by
      rw [uInt_of_lt (by omega)]
      omega
    simp only [MUnZip.unZip, h.opened, h.output, h.input, herr, hwritten, h.total_add, ne_eq,
      not_true_eq_false, if_false, true_and, List.take_length, hleft]
    rw [if_pos ⟨by rw [hwrites]; omega, hne⟩, hwrites, hlength, hdouble,
      if_neg (by omega : ¬ulUnZipLen * 2 = 0), toNat_add_sub (by omega), hroom',
      List.take_of_length_le hdata.le]
    rfl
  · refine ⟨rfl, ?_, ?_, howes, ?_, ?_, ?_, ?_⟩
    · rw [hdata, show ulUnZipLen * 2 - ulUnZipLen = ulUnZipLen by omega]
      rfl
    · rw [hdata]
      rfl
    · omega
    · rw [List.length_drop]
      omega
    · rw [hdata, List.length_drop]
      omega
    · omega

/-- `UnZip` writes what is owed, and the length is that of all that is in the buffer then. By
induction on the calls: each one that fills its buffer takes something off the rest. -/
theorem unZip_run {fuel : ℕ} (h : Unzipping manual d m pZipData data rest ulUnZipLen iRecursion
    stream unZipLen) (hfuel : rest.length < fuel) :
    ∃ m', m.unZip fuel pZipData data ulUnZipLen iRecursion
        = some (zOk, data ++ rest, data.length + rest.length, m') ∧ DecoderAt manual m' d := by
  induction fuel generalizing m pZipData data rest ulUnZipLen iRecursion stream with
  | zero => exact absurd hfuel (Nat.not_lt_zero _)
  | succ fuel ih =>
    have hroom := h.room
    obtain ⟨-, -, ⟨hread, hfits, hstep⟩ | ⟨hne, hfull, howes⟩⟩ :=
      manual.inflate_owes _ _ _ _ (ulUnZipLen - data.length) h.owes (Nat.sub_pos_of_lt hroom)
    · exact h.done fuel hread hfits hstep
    · -- Something was written, so less is owed.
      obtain ⟨hcall, hnext⟩ := h.full fuel rfl hne hfull howes
      obtain ⟨m', hrun, hdecoder⟩ := ih hnext (by rw [List.length_drop]; omega)
      refine ⟨m', hcall.trans (hrun.trans ?_), hdecoder⟩
      rw [List.append_assoc, List.take_append_drop, List.length_append,
        List.length_take_of_le hfull, List.length_drop]
      exact congrArg (fun n => some (zOk, data ++ rest, n, m')) (by omega)

end

/-- The first call of `UnZip`. -/
theorem unzipping_start {m : MUnZip z} {d : z.Deflater} {ulUnZipLen : ℕ}
    {stream : InflateStream z} (hopen : m.openStream ulUnZipLen = (zOk, stream, stream.totalOut))
    (hstep : manual.InStep d stream.state) {bEnable : Bool} {message : Str}
    (h : Compresses manual d bEnable message) (hpos : 0 < ulUnZipLen)
    (hsize : ulUnZipLen < 2 ^ 32) :
    Unzipping manual (manual.after d message) m (manual.sync d message) [] message ulUnZipLen 0
      stream stream.totalOut where
  opened := hopen
  output := by
    show ({ stream with nextOut := 0, availOut := uInt ulUnZipLen } : InflateStream z) = _
    rw [uInt_of_lt hsize]
    rfl
  total := (UInt64.add_zero stream.totalOut).symm
  owes := manual.owes_sync d stream.state message hstep h.ne_nil
  room := hpos
  input_lt := h.fits.trans h.short
  length_lt := by
    have hshort := h.short
    rw [List.length_nil]
    omega
  size_lt := hsize.trans (by decide)

/-- `UnZipData` of what was written for a message gives the message. -/
theorem unZipData_sync {fuel : ℕ} {m : MUnZip z} {d : z.Deflater}
    (hm : DecoderAt manual m d) {bEnable : Bool} {message : Str}
    (h : Compresses manual d bEnable message) (hfuel : message.length < fuel) :
    ∃ m', m.unZipData fuel (manual.sync d message) = some ((message.length, message), m') ∧
      DecoderAt manual m' (manual.after d message) := by
  have hpos : 0 < (manual.sync d message).length :=
    List.length_pos_iff.mpr (manual.sync_ne_nil d message)
  have hne : message.length ≠ 0 := fun hzero => h.ne_nil (List.eq_nil_of_length_eq_zero hzero)
  let ulUnZipLen := if (manual.sync d message).length * 2 > maxBlocksize + 300
    then maxBlocksize + 300 else (manual.sync d message).length * 2
  -- The first buffer has room for something, and a size that fits in the stream.
  have hsize : 0 < ulUnZipLen ∧ ulUnZipLen ≤ maxBlocksize + 300 := by
    simp only [ulUnZipLen]
    split <;> omega
  have hmax : maxBlocksize = 184320 := rfl
  obtain ⟨stream, hopen, hstep⟩ := hm ulUnZipLen
  have hstart := unzipping_start hopen hstep h hsize.1 (by omega)
  obtain ⟨m', hrun, hdecoder⟩ := unZip_run hstart hfuel
  rw [List.nil_append, List.length_nil, Nat.zero_add] at hrun
  refine ⟨m', ?_, hdecoder⟩
  rw [MUnZip.unZipData, if_neg hpos.ne']
  show (m.unZip fuel (manual.sync d message) [] ulUnZipLen 0).map _ = _
  rw [hrun]
  show some (if zOk ≠ zOk ∨ message.length = 0 then _
    else ((message.length, message.take message.length), m')) = _
  rw [if_neg fun hor => hor.elim (fun hok => hok rfl) hne, List.take_length]

/-! ### Sequences of messages -/

/-- Every message is compressed, from a state of the encoder on. -/
def AllCompressed (manual : z.Manual) : z.Deflater → List (Bool × Str) → Prop
  | _, [] => True
  | d, (bEnable, message) :: messages =>
    Compresses manual d bEnable message ∧ AllCompressed manual (manual.after d message) messages

/-- From a point where the two are in step, such messages come back. -/
theorem round_trip_from {fuel : ℕ} {messages : List (Bool × Str)}
    (hfuel : ∀ message ∈ messages, message.2.length < fuel) {zip : MZip z} {unZip : MUnZip z}
    {d : z.Deflater} (hzip : EncoderAt zip d) (hunZip : DecoderAt manual unZip d)
    (h : AllCompressed manual d messages) :
    unZipAll fuel unZip (zipAll zip messages)
      = some (messages.map fun message => (message.2.length, message.2)) := by
  induction messages generalizing zip unZip d with
  | nil => rfl
  | cons first messages ih =>
    obtain ⟨bEnable, message⟩ := first
    obtain ⟨hfirst, hrest⟩ := h
    obtain ⟨zip', hzipData, hzip'⟩ := zipData_sync hzip hfirst
    obtain ⟨unZip', hunZipData, hunZip'⟩ :=
      unZipData_sync hunZip hfirst (hfuel _ List.mem_cons_self)
    have htail := ih (fun m hm => hfuel m (List.mem_cons_of_mem _ hm)) hzip' hunZip' hrest
    simp only [zipAll, hzipData, unZipAll, hunZipData, htail, Option.bind_eq_bind,
      Option.bind_some, List.map_cons]

/-- Messages that are all compressed come back, each with its length and its bytes. -/
theorem compressed_round_trip (manual : z.Manual) {messages : List (Bool × Str)}
    (h : AllCompressed manual z.deflateInit.2 messages) {fuel : ℕ}
    (hfuel : ∀ message ∈ messages, message.2.length < fuel) :
    unZipAll fuel (MUnZip.new z) (zipAll (MZip.new z) messages)
      = some (messages.map fun message => (message.2.length, message.2)) :=
  round_trip_from hfuel (encoderAt_new manual.deflateInit_ok) decoderAt_new h

/-- A message that zlib makes one stored block of. -/
def highBytes : Str :=
  [144, 145, 146, 147, 148, 149, 150, 151, 152, 153, 154, 155, 156, 157, 158, 159, 160]

/-- One message of bytes above 127, over stored blocks. -/
theorem compressed_round_trip_highBytes :
    unZipAll 18 (MUnZip.new storedZlib) (zipAll (MZip.new storedZlib) [(true, highBytes)])
      = some [(17, highBytes)] := by
  have hfits : (sync false highBytes).length < highBytes.length + 300 := by
    have hone : blocks highBytes = block highBytes := by
      rw [blocks, if_pos (by decide)]
    rw [sync, hone]
    decide
  have hall : AllCompressed storedManual false [(true, highBytes)] :=
    ⟨⟨rfl, by decide, by decide, hfits⟩, trivial⟩
  exact compressed_round_trip storedManual hall
    (fun message hmem => by rw [List.mem_singleton.mp hmem]; decide)

/-- A message that is short, or comes while compression is disabled, goes out as it is. -/
theorem zipData_stored (m : MZip z) (bEnable : Bool) {message : Str} (hne : message ≠ [])
    (h : bEnable = false ∨ message.length < encodeZlibMinCompSize) :
    (m.enableCompress bEnable).zipData message = (message, m.enableCompress bEnable) := by
  have hpos := List.length_pos_iff.mpr hne
  have hstore : memcpy [zipTypeNone] message = message := by
    unfold memcpy
    rw [List.drop_eq_nil_of_le hpos, List.append_nil]
  have henabled : (m.enableCompress bEnable).bCompress = bEnable := rfl
  rw [MZip.zipData, if_neg hpos.ne', hstore, henabled]
  rcases h with hdisabled | hshort
  · rw [if_pos hdisabled]
  · rw [if_pos hshort]
    split <;> rfl

/-- `hello`, as it is, does not begin like a stream. -/
theorem stored_not_returned :
    unZipAll 6 (MUnZip.new storedZlib)
        (zipAll (MZip.new storedZlib) [(true, [104, 101, 108, 108, 111])])
      ≠ some [(5, [104, 101, 108, 108, 111])] := by
  have hshort : [(104 : UInt8), 101, 108, 108, 111].length < encodeZlibMinCompSize := by decide
  rw [zipAll, zipData_stored (MZip.new storedZlib) true (List.cons_ne_nil _ _) (.inr hshort)]
  decide

end Mylib.Proofs.Base.Zip
