import LspGraph.Framing
import LspGraph.Streaming
import Mathlib.Tactic.NormNum

/-! The decoder as an incremental decoder, and the round trip of `encode` through it under any
chunking. -/
namespace LspGraph
open RustText Streaming

theorem findSubslice_bound (b needle : Bytes) (i : ℕ) (h : findSubslice b needle = some i) :
    i + needle.length ≤ b.length := by
  induction b generalizing i with
  | nil => simp [findSubslice] at h
  | cons a b ih =>
    simp only [findSubslice] at h
    split_ifs at h with hp
    · obtain rfl : 0 = i := by simpa using h
      have hle := (List.isPrefixOf_iff_prefix.mp hp).length_le
      omega
    · obtain ⟨j, hj, rfl⟩ := Option.map_eq_some_iff.mp h
      have hle := ih j hj
      simp only [List.length_cons]
      omega

/-- A found position stays the first one when data is appended: an occurrence that only the new
data completes would start later. -/
theorem findSubslice_append (b x needle : Bytes) (i : ℕ) (h : findSubslice b needle = some i) :
    findSubslice (b ++ x) needle = some i := by
  induction b generalizing i with
  | nil => simp [findSubslice] at h
  | cons a b ih =>
    simp only [List.cons_append, findSubslice] at h ⊢
    by_cases hp : needle.isPrefixOf (a :: b) = true
    · have hp' : needle.isPrefixOf (a :: (b ++ x)) = true :=
        List.isPrefixOf_iff_prefix.mpr
          ((List.isPrefixOf_iff_prefix.mp hp).trans (List.prefix_append (a :: b) x))
      rw [if_pos hp] at h
      rw [if_pos hp', h]
    · rw [if_neg hp] at h
      obtain ⟨j, hj, rfl⟩ := Option.map_eq_some_iff.mp h
      -- the needle fits into the old data, so that the new data cannot complete it earlier
      have hlen := findSubslice_bound b needle j hj
      have hp' : ¬needle.isPrefixOf (a :: (b ++ x)) = true := by
        intro hx
        have hpre := List.prefix_of_prefix_length_le (List.isPrefixOf_iff_prefix.mp hx)
          (List.prefix_append (a :: b) x) (by simp only [List.length_cons]; omega)
        exact hp (List.isPrefixOf_iff_prefix.mpr hpre)
      rw [if_neg hp', ih j hj, Option.map_some]

/-- A terminator is found right after a header that does not contain its first byte. -/
theorem findSubslice_after (h rest : Bytes) (hh : (13 : UInt8) ∉ h) :
    findSubslice (h ++ crlfcrlf ++ rest) crlfcrlf = some h.length := by
  induction h with
  | nil => rfl
  | cons a h ih =>
    have ha : (13 : UInt8) ≠ a := fun he => hh (he ▸ List.mem_cons_self)
    have ht := ih fun hm => hh (List.mem_cons_of_mem a hm)
    have hp : ¬crlfcrlf.isPrefixOf (a :: (h ++ crlfcrlf ++ rest)) = true := by
      simp [crlfcrlf, List.isPrefixOf, ha]
    simp only [List.cons_append, findSubslice]
    rw [if_neg hp, ht, Option.map_some, List.length_cons]

/-- What the bytes before the terminator say: the declared length, or why there is none. -/
def headerLength (header : Bytes) : Result ℕ :=
  match fromUtf8 header with
  | .error e => .error (.protocol ("invalid UTF-8 in header: " ++ e))
  | .ok cs =>
    match scanHeader (splitCrlf cs) none with
    | .error line => .error (.protocol ("header line without colon: " ++ String.ofList line))
    | .ok none => .error (.protocol "no Content-Length header found")
    | .ok (some len) => .ok len

/-- `nextMessage` in terms of the two questions it asks. -/
theorem nextMessage_eq (b : Bytes) : (Decoder.mk b).nextMessage =
    match findSubslice b crlfcrlf with
    | none => some (.ok none, ⟨b⟩)
    | some e =>
      match headerLength (b.take e) with
      | .error err => some (.error err, ⟨b.drop (e + 4)⟩)
      | .ok len =>
        if 2^64 ≤ e + 4 + len then none
        else if b.length < e + 4 + len then some (.ok none, ⟨b⟩)
        else some (.ok (some ((b.take (e + 4 + len)).drop (e + 4))), ⟨b.drop (e + 4 + len)⟩) := by
  unfold Decoder.nextMessage headerLength
  cases findSubslice b crlfcrlf with
  | none => rfl
  | some e =>
    dsimp only
    cases fromUtf8 (b.take e) with
    | error e' => rfl
    | ok cs =>
      dsimp only
      cases scanHeader (splitCrlf cs) none with
      | error line => rfl
      | ok len =>
        cases len with
        | none => rfl
        | some len => rfl

/-- One call of `next_message` on a buffer. -/
def pollFrames (b : Bytes) : Poll UInt8 (Result Bytes) :=
  match (Decoder.mk b).nextMessage with
  | none => .abort
  | some (.ok none, _) => .wait
  | some (.ok (some body), d) => .item (.ok body) d.buf
  | some (.error e, d) => .item (.error e) d.buf

/-- What one call does to the buffer, in the cases the decoder distinguishes. -/
theorem pollFrames_eq (b : Bytes) : pollFrames b =
    match findSubslice b crlfcrlf with
    | none => .wait
    | some e =>
      match headerLength (b.take e) with
      | .error err => .item (.error err) (b.drop (e + 4))
      | .ok len =>
        if 2^64 ≤ e + 4 + len then .abort
        else if b.length < e + 4 + len then .wait
        else .item (.ok ((b.take (e + 4 + len)).drop (e + 4))) (b.drop (e + 4 + len)) := by
  unfold pollFrames
  rw [nextMessage_eq]
  cases findSubslice b crlfcrlf with
  | none => rfl
  | some e =>
    dsimp only
    cases headerLength (b.take e) with
    | error err => rfl
    | ok len =>
      dsimp only
      split_ifs <;> rfl

/-- An item is the error of a header, or the body that a header declares, once it is there. -/
theorem pollFrames_item_iff {b rest : Bytes} {r : Result Bytes} : pollFrames b = .item r rest ↔
    ∃ e, findSubslice b crlfcrlf = some e ∧
      ((∃ err, headerLength (b.take e) = .error err ∧ .error err = r ∧ b.drop (e + 4) = rest) ∨
        ∃ len, headerLength (b.take e) = .ok len ∧ e + 4 + len < 2^64 ∧ e + 4 + len ≤ b.length ∧
          .ok ((b.take (e + 4 + len)).drop (e + 4)) = r ∧ b.drop (e + 4 + len) = rest) := by
  rw [pollFrames_eq]
  cases findSubslice b crlfcrlf with
  | none => simp
  | some e =>
    dsimp only
    cases hl : headerLength (b.take e) with
    | error err => simp [hl]
    | ok len =>
      dsimp only
      split_ifs with hover hshort
      · simp [hl]
        intro hrange
        omega
      · simp [hl, Nat.not_le.mpr hshort]
      · simp [hl, Nat.not_lt.mp hshort]
        intro _ _
        omega

/-- A call panics where the declared length overflows. -/
theorem pollFrames_abort_iff {b : Bytes} : pollFrames b = .abort ↔
    ∃ e len, findSubslice b crlfcrlf = some e ∧ headerLength (b.take e) = .ok len ∧
      2^64 ≤ e + 4 + len := by
  rw [pollFrames_eq]
  cases findSubslice b crlfcrlf with
  | none => simp
  | some e =>
    dsimp only
    cases hl : headerLength (b.take e) with
    | error err => simp [hl]
    | ok len =>
      dsimp only
      split_ifs with hover hshort
      · simp [hl]
        omega
      · simp [hl]
        omega
      · simp [hl]
        omega

/-- A terminator that was found is found again, with the same header before it. -/
theorem terminator_append (b x : Bytes) (e : ℕ) (h : findSubslice b crlfcrlf = some e) :
    findSubslice (b ++ x) crlfcrlf = some e ∧ (b ++ x).take e = b.take e ∧ e + 4 ≤ b.length := by
  have hb : e + 4 ≤ b.length := findSubslice_bound b crlfcrlf e h
  exact ⟨findSubslice_append b x crlfcrlf e h, List.take_append_of_le_length (by omega), hb⟩

/-- `next_message` as an incremental decoder. -/
def frames : Incremental UInt8 (Result Bytes) where
  poll := pollFrames
  -- an item takes at least the terminator away
  shrinks := by
    intro b r rest h
    obtain ⟨e, hf, hitem⟩ := pollFrames_item_iff.mp h
    have hb : e + 4 ≤ b.length := findSubslice_bound b crlfcrlf e hf
    rcases hitem with ⟨err, -, -, rfl⟩ | ⟨len, -, -, hlen, -, rfl⟩
    · rw [List.length_drop]
      omega
    · rw [List.length_drop]
      omega
  item_append := by
    intro b r rest x h
    obtain ⟨e, hf, hitem⟩ := pollFrames_item_iff.mp h
    obtain ⟨hf', htake, hb⟩ := terminator_append b x e hf
    apply pollFrames_item_iff.mpr
    rcases hitem with ⟨err, hl, rfl, rfl⟩ | ⟨len, hl, hrange, hlen, rfl, rfl⟩
    · have hdrop : (b ++ x).drop (e + 4) = b.drop (e + 4) ++ x :=
        List.drop_append_of_le_length hb
      exact ⟨e, hf', Or.inl ⟨err, htake ▸ hl, rfl, hdrop⟩⟩
    · have hlonger : e + 4 + len ≤ (b ++ x).length := by
        rw [List.length_append]
        omega
      refine ⟨e, hf', Or.inr ⟨len, htake ▸ hl, hrange, hlonger, ?_, ?_⟩⟩
      · rw [List.take_append_of_le_length hlen]
      · exact List.drop_append_of_le_length hlen
  -- the declared length decides, and it is in the part that is there
  abort_append := by
    intro b x h
    obtain ⟨e, len, hf, hl, hover⟩ := pollFrames_abort_iff.mp h
    obtain ⟨hf', htake, -⟩ := terminator_append b x e hf
    exact pollFrames_abort_iff.mpr ⟨e, len, hf', htake ▸ hl, hover⟩

/-- Push the chunks in order and after each push call `next_message` until it gives `Ok(None)`,
past errors as well: the results, and the decoder left unless a call panicked. -/
def Decoder.receive (d : Decoder) (chunks : List Bytes) : List (Result Bytes) × Option Decoder :=
  ((frames.feed d.buf chunks).1, (frames.feed d.buf chunks).2.map Decoder.mk)

theorem strBytes_append (s t : String) : strBytes (s ++ t) = strBytes s ++ strBytes t := by
  simp [strBytes, String.toByteArray_append, ByteArray.data_append]

/-- The UTF-8 form of ASCII characters is their codes. -/
theorem strBytes_ascii (cs : List Char) (h : ∀ c ∈ cs, c.toNat < 128) :
    strBytes (String.ofList cs) = cs.map fun c => UInt8.ofNat c.toNat := by
  have hbytes : strBytes (String.ofList cs) = cs.flatMap String.utf8EncodeChar := by
    simp [strBytes, List.utf8Encode]
  have hone (c : Char) (hc : c.toNat < 128) :
      String.utf8EncodeChar c = [UInt8.ofNat c.toNat] := by
    have hle : c.val.toNat ≤ 0x7f := Nat.le_of_lt_succ hc
    unfold String.utf8EncodeChar
    exact if_pos hle
  rw [hbytes]
  induction cs with
  | nil => rfl
  | cons c cs ih =>
    have ht := ih (fun d hd => h d (List.mem_cons_of_mem c hd))
      (by simp [strBytes, List.utf8Encode])
    rw [List.flatMap_cons, hone c (h c List.mem_cons_self), ht]
    rfl

theorem fromUtf8_strBytes (s : String) : fromUtf8 (strBytes s) = .ok s.toList := by
  have h : (⟨(strBytes s).toArray⟩ : ByteArray) = s.toList.utf8Encode := by
    simp [strBytes, String.utf8Encode_toList]
  unfold fromUtf8
  rw [h, List.utf8Decode?_utf8Encode]

/-- The header line of a frame with an `n`-byte body. -/
def headerLine (n : ℕ) : String := "Content-Length: " ++ n.repr

theorem headerLine_toList (n : ℕ) : (headerLine n).toList =
    "Content-Length".toList ++ ':' :: ' ' :: Nat.toDigits 10 n := by
  have hname : "Content-Length: ".toList = "Content-Length".toList ++ [':', ' '] := by decide
  calc (headerLine n).toList
    _ = "Content-Length: ".toList ++ n.repr.toList := String.toList_append
    _ = ("Content-Length".toList ++ [':', ' ']) ++ Nat.toDigits 10 n :=
        congrArg₂ (· ++ ·) hname Nat.toList_repr
    _ = "Content-Length".toList ++ ':' :: ' ' :: Nat.toDigits 10 n := List.append_assoc ..

theorem headerLine_ascii (n : ℕ) :
    ∀ c ∈ (headerLine n).toList, c.toNat < 128 ∧ c ≠ '\r' := by
  have hall : ("Content-Length".toList.all fun c => decide (c.toNat < 128 ∧ c ≠ '\r')) = true := by
    decide
  have hname (c : Char) (hc : c ∈ "Content-Length".toList) : c.toNat < 128 ∧ c ≠ '\r' :=
    of_decide_eq_true (List.all_eq_true.mp hall c hc)
  intro c hc
  rw [headerLine_toList] at hc
  rcases List.mem_append.mp hc with hc | hc
  · exact hname c hc
  · rcases List.mem_cons.mp hc with rfl | hc
    · decide
    · rcases List.mem_cons.mp hc with rfl | hc
      · decide
      · have hd := all_isDigit_toDigits n c hc
        exact ⟨by have := isDigit_toNat c hd; omega, ne_of_isDigit c '\r' hd (by decide)⟩

theorem headerLine_bytes (n : ℕ) : strBytes (headerLine n) =
    (headerLine n).toList.map fun c => UInt8.ofNat c.toNat := by
  have h := strBytes_ascii (headerLine n).toList fun c hc => (headerLine_ascii n c hc).1
  rwa [String.ofList_toList] at h

theorem headerLine_no_cr (n : ℕ) : (13 : UInt8) ∉ strBytes (headerLine n) := by
  rw [headerLine_bytes]
  intro hm
  obtain ⟨c, hc, he⟩ := List.mem_map.mp hm
  obtain ⟨hlt, hne⟩ := headerLine_ascii n c hc
  have hcode : c.toNat = 13 := by
    have := congrArg UInt8.toNat he
    simpa [UInt8.toNat_ofNat, Nat.mod_eq_of_lt (show c.toNat < 256 by omega)] using this
  exact hne (Char.toNat_inj.mp hcode)

theorem headerLine_length (n : ℕ) (hn : n < 2^64) : (strBytes (headerLine n)).length ≤ 36 := by
  have hd : (Nat.toDigits 10 n).length ≤ 20 :=
    (Nat.length_toDigits_le_iff (by decide) (by decide)).mpr (hn.trans (by norm_num))
  have hname : "Content-Length".toList.length = 14 := by decide
  rw [headerLine_bytes, List.length_map, headerLine_toList, List.length_append, hname]
  simp only [List.length_cons]
  omega

/-- The header that `encode` writes is read back as the length it states. -/
theorem headerLength_headerLine (n : ℕ) (hn : n < 2^64) :
    headerLength (strBytes (headerLine n)) = .ok n := by
  have hcr : '\r' ∉ (headerLine n).toList := fun hm => (headerLine_ascii n _ hm).2 rfl
  have hcolon : ':' ∉ "Content-Length".toList := by decide
  have hname : eqIgnoreAsciiCase (trim "Content-Length".toList) "content-length".toList = true := by
    decide
  have hscan : scanHeader [(headerLine n).toList] none = .ok (some n) := by
    rw [headerLine_toList]
    simp only [scanHeader, List.append_eq_nil_iff, reduceCtorEq, and_false, ↓reduceIte,
      splitOnce_append ':' _ _ hcolon, hname,
      trim_blank_digits _ (all_isDigit_toDigits n), parseUsize_toDigits n hn]
  unfold headerLength
  rw [fromUtf8_strBytes]
  simp only [splitCrlf_of_notMem _ hcr, hscan]

theorem encode_eq (p : Bytes) : encode p = strBytes (headerLine p.length) ++ crlfcrlf ++ p := by
  have hend : strBytes "\r\n\r\n" = crlfcrlf := by decide
  rw [encode, strBytes_append, hend]
  rfl

/-- A frame at the front of the buffer comes out whole, whatever follows it. -/
theorem pollFrames_encode (p rest : Bytes) (hp : p.length < 2^63) :
    frames.poll (encode p ++ rest) = .item (.ok p) rest := by
  have hh := headerLine_length p.length (hp.trans (by norm_num))
  have hfind := findSubslice_after (strBytes (headerLine p.length)) (p ++ rest)
    (headerLine_no_cr p.length)
  have hlen := headerLength_headerLine p.length (hp.trans (by norm_num))
  rw [encode_eq]
  -- from here on only the length of the header counts
  generalize strBytes (headerLine p.length) = h at *
  have hassoc : h ++ crlfcrlf ++ p ++ rest = h ++ crlfcrlf ++ (p ++ rest) :=
    List.append_assoc _ _ _
  have htake : (h ++ crlfcrlf ++ (p ++ rest)).take h.length = h := by
    rw [List.append_assoc, List.take_left']
    rfl
  have hsize : (h ++ crlfcrlf ++ p).length = h.length + 4 + p.length := by
    simp only [crlfcrlf, List.length_append, List.length_cons, List.length_nil]
  have hbody : ((h ++ crlfcrlf ++ p ++ rest).take (h.length + 4 + p.length)).drop
      (h.length + 4) = p := by
    rw [List.take_left' hsize]
    exact List.drop_left' (by simp [crlfcrlf])
  have hrest : (h ++ crlfcrlf ++ p ++ rest).drop (h.length + 4 + p.length) = rest :=
    List.drop_left' hsize
  have hfit : ¬(h ++ crlfcrlf ++ p ++ rest).length < h.length + 4 + p.length := by
    rw [List.length_append, hsize]
    omega
  change pollFrames _ = _
  rw [pollFrames_eq, hassoc, hfind]
  dsimp only
  rw [htake, hlen]
  dsimp only
  rw [← hassoc, if_neg (by omega), if_neg hfit, hbody, hrest]

theorem pollFrames_nil : frames.poll [] = .wait := by
  change pollFrames [] = .wait
  rw [pollFrames_eq]
  rfl

/-- Encoded payloads are drained whole, by induction on the payloads. -/
theorem drain_encode (payloads : List Bytes) (hp : ∀ p ∈ payloads, p.length < 2^63) :
    frames.drain (payloads.map encode).flatten = (payloads.map .ok, some []) := by
  induction payloads with
  | nil => exact Incremental.drain_wait pollFrames_nil
  | cons p ps ih =>
    have ht := ih fun q hq => hp q (List.mem_cons_of_mem p hq)
    rw [List.map_cons, List.flatten_cons,
      Incremental.drain_item (pollFrames_encode p _ (hp p List.mem_cons_self)), ht]
    rfl

/-- What a new decoder makes of a stream, however it is cut. -/
theorem receive_eq_drain (chunks : List Bytes) : Decoder.new.receive chunks =
    ((frames.drain chunks.flatten).1, (frames.drain chunks.flatten).2.map Decoder.mk) := by
  have hfeed : frames.feed Decoder.new.buf chunks = frames.drain chunks.flatten :=
    Incremental.feed_eq_drain chunks pollFrames_nil
  rw [Decoder.receive, hfeed]

end LspGraph
