import LspGraph.ReadLoop

/-! The grammar of frames: what `next_message` accepts, and that it accounts for every byte. -/
namespace LspGraph
open RustText Streaming Runs

/-- The bytes before the first terminator, and those behind it. -/
structure FirstTerminator (b h rest : Bytes) : Prop where
  split : b = h ++ crlfcrlf ++ rest
  first : ∀ p q, b = p ++ crlfcrlf ++ q → h.length ≤ p.length

/-- A header line with the key `content-length`, up to white space and case, and this value. -/
def LengthLine (line value : List Char) : Prop :=
  ∃ k, line = k ++ ':' :: value ∧ ':' ∉ k ∧
    eqIgnoreAsciiCase (trim k) "content-length".toList = true

/-- The last line with the key `content-length` has this value. -/
def LastLength (lines : List (List Char)) (value : List Char) : Prop :=
  ∃ before line after, lines = before ++ line :: after ∧ LengthLine line value ∧
    ∀ l ∈ after, ∀ v, ¬LengthLine l v

/-- The grammar of a header that declares a length. -/
def WellFormed (h : Bytes) (len : ℕ) : Prop :=
  ∃ (text : String) (lines : List (List Char)) (value : List Char), h = strBytes text ∧
    CrlfLines text.toList lines ∧ (∀ line ∈ lines, line ≠ [] → ':' ∈ line) ∧
    LastLength lines value ∧ parseUsize (trim value) = some len

theorem findSubslice_eq_some {b needle : Bytes} {i : ℕ} (h : findSubslice b needle = some i) :
    ∃ rest, b = b.take i ++ needle ++ rest := by
  induction b generalizing i with
  | nil => simp [findSubslice] at h
  | cons a b ih =>
    simp only [findSubslice] at h
    split_ifs at h with hp
    · obtain rfl : 0 = i := Option.some.inj h
      obtain ⟨rest, hrest⟩ := List.isPrefixOf_iff_prefix.mp hp
      exact ⟨rest, hrest.symm⟩
    · obtain ⟨j, hj, rfl⟩ := Option.map_eq_some_iff.mp h
      obtain ⟨rest, hrest⟩ := ih hj
      refine ⟨rest, ?_⟩
      rw [List.take_succ_cons, List.cons_append, List.cons_append, ← hrest]

/-- An occurrence is not before the position that is found. -/
theorem findSubslice_le (p q : Bytes) {needle : Bytes} (hne : needle ≠ []) :
    ∃ i, findSubslice (p ++ needle ++ q) needle = some i ∧ i ≤ p.length := by
  induction p with
  | nil =>
    cases needle with
    | nil => exact absurd rfl hne
    | cons a needle =>
      refine ⟨0, ?_, Nat.le_refl 0⟩
      have hp : (a :: needle).isPrefixOf (a :: (needle ++ q)) = true :=
        List.isPrefixOf_iff_prefix.mpr (List.prefix_append (a :: needle) q)
      simp only [List.nil_append, List.cons_append, findSubslice]
      rw [if_pos hp]
  | cons a p ih =>
    obtain ⟨i, hi, hle⟩ := ih
    simp only [List.cons_append, findSubslice]
    split_ifs
    · exact ⟨0, rfl, Nat.zero_le _⟩
    · exact ⟨i + 1, by rw [hi]; rfl, Nat.succ_le_succ hle⟩

theorem crlfcrlf_ne_nil : crlfcrlf ≠ [] := by decide

/-- The position that is found is that of the first terminator. -/
theorem findSubslice_iff (b h rest : Bytes) : FirstTerminator b h rest ↔
    findSubslice b crlfcrlf = some h.length ∧ h = b.take h.length ∧
      rest = b.drop (h.length + 4) := by
  have hdrop (h rest : Bytes) : (h ++ crlfcrlf ++ rest).drop (h.length + 4) = rest :=
    List.drop_left' (by simp [crlfcrlf])
  constructor
  · rintro ⟨rfl, hfirst⟩
    obtain ⟨i, hi, hle⟩ := findSubslice_le h rest crlfcrlf_ne_nil
    obtain ⟨rest', hsplit⟩ := findSubslice_eq_some hi
    have hlen := findSubslice_bound _ _ _ hi
    have hmin := hfirst _ _ hsplit
    rw [List.length_take] at hmin
    -- the occurrence is not later than the first one, and not earlier
    obtain rfl : i = h.length := by omega
    refine ⟨hi, ?_, (hdrop h rest).symm⟩
    rw [List.append_assoc, List.take_left' rfl]
  · rintro ⟨hi, htake, hrest⟩
    obtain ⟨rest', hsplit⟩ := findSubslice_eq_some hi
    rw [← htake] at hsplit
    have hrest' : rest = rest' := by rw [hrest, hsplit, hdrop]
    refine ⟨by rw [hrest']; exact hsplit, fun p q hpq => ?_⟩
    obtain ⟨j, hj, hle⟩ := findSubslice_le p q crlfcrlf_ne_nil
    rw [← hpq, hi] at hj
    rw [Option.some.inj hj]
    exact hle

theorem findSubslice_eq_none_iff (b : Bytes) :
    findSubslice b crlfcrlf = none ↔ ∀ p q, b ≠ p ++ crlfcrlf ++ q := by
  constructor
  · rintro hn p q rfl
    obtain ⟨i, hi, -⟩ := findSubslice_le p q crlfcrlf_ne_nil
    rw [hn] at hi
    cases hi
  · intro h
    by_contra hn
    obtain ⟨i, hi⟩ := Option.ne_none_iff_exists'.mp hn
    obtain ⟨rest, hsplit⟩ := findSubslice_eq_some hi
    exact h _ _ hsplit

theorem fromUtf8_eq_ok_iff (h : Bytes) (cs : List Char) :
    fromUtf8 h = .ok cs ↔ h = strBytes (String.ofList cs) := by
  constructor
  · intro hok
    unfold fromUtf8 at hok
    cases hd : ByteArray.utf8Decode? ⟨h.toArray⟩ with
    | none =>
      rw [hd] at hok
      cases hok
    | some arr =>
      rw [hd] at hok
      have henc := ByteArray.utf8Encode_get_utf8Decode? (b := ⟨h.toArray⟩)
        (h := by rw [hd]; rfl)
      simp only [hd, Option.get_some, Except.ok.inj hok] at henc
      have hstr : (String.ofList cs).toUTF8 = cs.utf8Encode := by
        rw [← String.toList_ofList (l := cs), String.utf8Encode_toList, String.toList_ofList]
        rfl
      rw [strBytes, hstr, henc]
  · rintro rfl
    rw [fromUtf8_strBytes, String.toList_ofList]

/-- A line either has a key and a value, at its first colon, or no colon at all. -/
theorem lengthLine_iff {line k v : List Char} (hs : splitOnce ':' line = some (k, v))
    (value : List Char) : LengthLine line value ↔
      value = v ∧ eqIgnoreAsciiCase (trim k) "content-length".toList = true := by
  constructor
  · rintro ⟨k', hline, hk', hname⟩
    rw [(splitOnce_eq_some_iff ':' line k' value).mpr ⟨hline, hk'⟩] at hs
    obtain ⟨rfl, rfl⟩ := Prod.mk.inj (Option.some.inj hs)
    exact ⟨rfl, hname⟩
  · rintro ⟨rfl, hname⟩
    obtain ⟨hline, hk⟩ := (splitOnce_eq_some_iff ':' line k value).mp hs
    exact ⟨k, hline, hk, hname⟩

theorem LengthLine.colon {line value : List Char} (h : LengthLine line value) : ':' ∈ line := by
  obtain ⟨k, rfl, -⟩ := h
  exact List.mem_append_right _ List.mem_cons_self

/-- The last length line of a list with one more line in front. -/
theorem lastLength_cons_iff (line : List Char) (lines : List (List Char)) (value : List Char) :
    LastLength (line :: lines) value ↔ LastLength lines value ∨
      LengthLine line value ∧ ∀ l ∈ lines, ∀ v, ¬LengthLine l v := by
  constructor
  · rintro ⟨before, l, after, heq, hl, hafter⟩
    cases before with
    | nil =>
      obtain ⟨rfl, rfl⟩ := List.cons.inj heq
      exact .inr ⟨hl, hafter⟩
    | cons x before =>
      obtain ⟨rfl, rfl⟩ := List.cons.inj heq
      exact .inl ⟨before, l, after, rfl, hl, hafter⟩
  · rintro (⟨before, l, after, rfl, hl, hafter⟩ | ⟨hl, hafter⟩)
    · exact ⟨line :: before, l, after, rfl, hl, hafter⟩
    · exact ⟨[], line, lines, rfl, hl, hafter⟩

/-- What the loop over the lines yields: without an error it is what the last length line says,
or what it was given where there is none. -/
theorem scanHeader_eq_ok_iff (lines : List (List Char)) (acc r : Option ℕ) :
    scanHeader lines acc = .ok r ↔ (∀ line ∈ lines, line ≠ [] → ':' ∈ line) ∧
      ((∃ value, LastLength lines value ∧ r = parseUsize (trim value)) ∨
        (∀ l ∈ lines, ∀ v, ¬LengthLine l v) ∧ r = acc) := by
  induction lines generalizing acc with
  | nil => simp [scanHeader, LastLength, eq_comm]
  | cons line lines ih =>
    rw [List.forall_mem_cons, List.forall_mem_cons]
    unfold scanHeader
    split_ifs with hempty
    · -- an empty line is passed over
      subst hempty
      have hno (v : List Char) : ¬LengthLine [] v := fun h => absurd h.colon (by simp)
      rw [ih]
      simp [lastLength_cons_iff, hno]
    · cases hs : splitOnce ':' line with
      | none =>
        -- a line without a colon ends the loop with an error
        have hcolon := (splitOnce_eq_none_iff ':' line).mp hs
        exact iff_of_false (by simp) fun h => hcolon (h.1.1 hempty)
      | some p =>
        obtain ⟨k, v⟩ := p
        have hcolon : ':' ∈ line := by
          rw [((splitOnce_eq_some_iff ':' line k v).mp hs).1]
          exact List.mem_append_right _ List.mem_cons_self
        have hline := lengthLine_iff hs
        rw [and_iff_right (fun _ => hcolon)]
        dsimp only
        split_ifs with hname
        · -- this line decides, unless another one follows
          have hv : LengthLine line v := (hline v).mpr ⟨rfl, hname⟩
          rw [ih]
          refine and_congr_right fun _ => ⟨?_, ?_⟩
          · rintro (⟨value, hl, hr⟩ | ⟨hno, hr⟩)
            · exact .inl ⟨value, (lastLength_cons_iff _ _ _).mpr (.inl hl), hr⟩
            · exact .inl ⟨v, (lastLength_cons_iff _ _ _).mpr (.inr ⟨hv, hno⟩), hr⟩
          · rintro (⟨value, hl, hr⟩ | ⟨⟨hno, -⟩, -⟩)
            · rcases (lastLength_cons_iff _ _ _).mp hl with hl | ⟨hl, hno⟩
              · exact .inl ⟨value, hl, hr⟩
              · rw [((hline value).mp hl).1] at hr
                exact .inr ⟨hno, hr⟩
            · exact absurd hv (hno v)
        · -- a line with another key says nothing about the length
          have hno (v : List Char) : ¬LengthLine line v := fun h => hname ((hline v).mp h).2
          rw [ih]
          simp only [lastLength_cons_iff, hno, false_and, or_false, not_false_eq_true, implies_true,
            true_and]

/-- A header says how long the body is exactly if it is well formed. -/
theorem headerLength_eq_ok_iff (h : Bytes) (len : ℕ) :
    headerLength h = .ok len ↔ WellFormed h len := by
  constructor
  · intro hok
    unfold headerLength at hok
    cases hu : fromUtf8 h with
    | error e =>
      rw [hu] at hok
      cases hok
    | ok cs =>
      rw [hu] at hok
      dsimp only at hok
      cases hs : scanHeader (splitCrlf cs) none with
      | error line =>
        rw [hs] at hok
        cases hok
      | ok r =>
        cases r with
        | none =>
          -- no length line, or a value that is not a number
          rw [hs] at hok
          cases hok
        | some len' =>
          rw [hs] at hok
          obtain rfl := Except.ok.inj hok
          obtain ⟨hcolons, ⟨value, hlast, hval⟩ | ⟨-, hnone⟩⟩ := (scanHeader_eq_ok_iff _ _ _).mp hs
          · refine ⟨String.ofList cs, splitCrlf cs, value, (fromUtf8_eq_ok_iff h cs).mp hu, ?_,
              hcolons, hlast, hval.symm⟩
            rw [String.toList_ofList]
            exact (splitCrlf_eq_iff cs _).mp rfl
          · cases hnone
  · rintro ⟨text, lines, value, rfl, hlines, hcolons, hlast, hval⟩
    have hsplit := (splitCrlf_eq_iff _ _).mpr hlines
    have hscan : scanHeader lines none = .ok (some len) :=
      (scanHeader_eq_ok_iff _ _ _).mpr ⟨hcolons, .inl ⟨value, hlast, hval.symm⟩⟩
    unfold headerLength
    rw [fromUtf8_strBytes]
    dsimp only
    rw [hsplit, hscan]

theorem WellFormed.unique {h : Bytes} {len len' : ℕ} (hw : WellFormed h len)
    (hw' : WellFormed h len') : len = len' := by
  rw [← headerLength_eq_ok_iff] at hw hw'
  exact Except.ok.inj (hw.symm.trans hw')

theorem FirstTerminator.unique {b h rest h' rest' : Bytes} (ht : FirstTerminator b h rest)
    (ht' : FirstTerminator b h' rest') : h = h' ∧ rest = rest' := by
  obtain ⟨hf, htake, hrest⟩ := (findSubslice_iff b h rest).mp ht
  obtain ⟨hf', htake', hrest'⟩ := (findSubslice_iff b h' rest').mp ht'
  have hlen : h.length = h'.length := Option.some.inj (hf.symm.trans hf')
  rw [htake, htake', hrest, hrest', hlen]
  exact ⟨rfl, rfl⟩

/-- Every buffer has no terminator, or a first one. -/
theorem terminator_or (b : Bytes) :
    (∀ p q, b ≠ p ++ crlfcrlf ++ q) ∨ ∃ h rest, FirstTerminator b h rest := by
  cases hf : findSubslice b crlfcrlf with
  | none => exact .inl ((findSubslice_eq_none_iff b).mp hf)
  | some i =>
    have hlen := findSubslice_bound b crlfcrlf i hf
    have htake : (b.take i).length = i := by
      rw [List.length_take]
      omega
    refine .inr ⟨b.take i, b.drop (i + 4), (findSubslice_iff _ _ _).mpr ?_⟩
    rw [htake]
    exact ⟨hf, rfl, rfl⟩

/-- `next_message` on a buffer with a terminator, in terms of the parts of the buffer. -/
theorem nextMessage_of_terminator {b h rest : Bytes} (ht : FirstTerminator b h rest) :
    (Decoder.mk b).nextMessage =
      match headerLength h with
      | .error err => some (.error err, ⟨rest⟩)
      | .ok len =>
        if 2^64 ≤ h.length + 4 + len then none
        else if rest.length < len then some (.ok none, ⟨b⟩)
        else some (.ok (some (rest.take len)), ⟨rest.drop len⟩) := by
  obtain ⟨hf, htake, hrest⟩ := (findSubslice_iff b h rest).mp ht
  have hlen : b.length = h.length + 4 + rest.length := by
    rw [ht.split]
    simp [crlfcrlf]
    omega
  rw [nextMessage_eq, hf]
  dsimp only
  rw [← htake, ← hrest]
  cases headerLength h with
  | error err => rfl
  | ok len =>
    dsimp only
    -- positions in the buffer, counted from the end of the terminator
    have hcond : (b.length < h.length + 4 + len) = (rest.length < len) := by
      rw [hlen]
      exact propext ⟨fun h => by omega, fun h => by omega⟩
    have hbody : (b.take (h.length + 4 + len)).drop (h.length + 4) = rest.take len := by
      rw [List.drop_take, hrest]
      congr 1
      omega
    have hleft : b.drop (h.length + 4 + len) = rest.drop len := by
      rw [hrest, List.drop_drop]
    simp only [hcond, hbody, hleft]

/-- What one call makes of a buffer: there is no terminator, the header is malformed, the declared
length leaves the range of `usize`, the body is not there yet, or it is. -/
inductive NextCase (b : Bytes) : Option (Result (Option Bytes) × Decoder) → Prop where
  | unterminated : (∀ p q, b ≠ p ++ crlfcrlf ++ q) → NextCase b (some (.ok none, ⟨b⟩))
  | malformed (h rest : Bytes) (e : Error) : FirstTerminator b h rest →
      (∀ len, ¬WellFormed h len) → NextCase b (some (.error e, ⟨rest⟩))
  | overflow (h rest : Bytes) (len : ℕ) : FirstTerminator b h rest → WellFormed h len →
      2^64 ≤ h.length + 4 + len → NextCase b none
  | short (h rest : Bytes) (len : ℕ) : FirstTerminator b h rest → WellFormed h len →
      rest.length < len → NextCase b (some (.ok none, ⟨b⟩))
  | body (h body rest : Bytes) : FirstTerminator b h (body ++ rest) →
      WellFormed h body.length → NextCase b (some (.ok (some body), ⟨rest⟩))

theorem next_case (b : Bytes) : NextCase b (Decoder.mk b).nextMessage := by
  rcases terminator_or b with hnone | ⟨h, rest, ht⟩
  · have hf := (findSubslice_eq_none_iff b).mpr hnone
    rw [nextMessage_eq, hf]
    exact .unterminated hnone
  · rw [nextMessage_of_terminator ht]
    cases hl : headerLength h with
    | error err =>
      apply NextCase.malformed h rest err ht
      intro len hw
      rw [(headerLength_eq_ok_iff h len).mpr hw] at hl
      cases hl
    | ok len =>
      have hw := (headerLength_eq_ok_iff h len).mp hl
      dsimp only
      split_ifs with hover hshort
      · exact .overflow h rest len ht hw hover
      · exact .short h rest len ht hw hshort
      · have hlen : (rest.take len).length = len := by
          rw [List.length_take]
          omega
        apply NextCase.body h _ _ (by rwa [List.take_append_drop])
        rwa [hlen]

theorem FirstTerminator.length {b h rest : Bytes} (ht : FirstTerminator b h rest) :
    b.length = h.length + 4 + rest.length := by
  rw [ht.split]
  simp [crlfcrlf]
  omega

/-- Every call that is not waiting takes at least a terminator away. -/
theorem nextMessage_shrinks {b : Bytes} {r : Result (Option Bytes)} {d : Decoder}
    (h : (Decoder.mk b).nextMessage = some (r, d)) (hr : r ≠ .ok none) :
    d.buf.length + 4 ≤ b.length := by
  have hc := next_case b
  rw [h] at hc
  cases hc with
  | unterminated => exact absurd rfl hr
  | short => exact absurd rfl hr
  | malformed h rest e ht =>
    have hlen := ht.length
    dsimp only
    omega
  | body h body rest ht =>
    have hlen := ht.length
    rw [List.length_append] at hlen
    dsimp only
    omega

section Fits

variable {b : Bytes} (hfit : ∀ h rest len, FirstTerminator b h rest → WellFormed h len →
  h.length + 4 + len < 2^64)
include hfit

theorem nextMessage_of_wellFormed {h rest : Bytes} {len : ℕ} (ht : FirstTerminator b h rest)
    (hw : WellFormed h len) : (Decoder.mk b).nextMessage =
      if rest.length < len then some (.ok none, ⟨b⟩)
      else some (.ok (some (rest.take len)), ⟨rest.drop len⟩) := by
  rw [nextMessage_of_terminator ht, (headerLength_eq_ok_iff h len).mpr hw]
  exact if_neg (Nat.not_le.mpr (hfit h rest len ht hw))

theorem nextMessage_body_iff (body rest : Bytes) :
    (Decoder.mk b).nextMessage = some (.ok (some body), ⟨rest⟩) ↔
      ∃ h, FirstTerminator b h (body ++ rest) ∧ WellFormed h body.length := by
  constructor
  · intro hm
    have hc := next_case b
    rw [hm] at hc
    cases hc with
    | body h _ _ ht hw => exact ⟨h, ht, hw⟩
  · rintro ⟨h, ht, hw⟩
    rw [nextMessage_of_wellFormed hfit ht hw, if_neg (by simp), List.take_left' rfl,
      List.drop_left' rfl]

theorem nextMessage_none_iff (d : Decoder) :
    (Decoder.mk b).nextMessage = some (.ok none, d) ↔ d = ⟨b⟩ ∧
      ((∀ p q, b ≠ p ++ crlfcrlf ++ q) ∨
        ∃ h rest len, FirstTerminator b h rest ∧ WellFormed h len ∧ rest.length < len) := by
  constructor
  · intro hm
    have hc := next_case b
    rw [hm] at hc
    cases hc with
    | unterminated hn => exact ⟨rfl, .inl hn⟩
    | short h rest len ht hw hlt => exact ⟨rfl, .inr ⟨h, rest, len, ht, hw, hlt⟩⟩
  · rintro ⟨rfl, hn | ⟨h, rest, len, ht, hw, hlt⟩⟩
    · rw [nextMessage_eq, (findSubslice_eq_none_iff b).mpr hn]
    · rw [nextMessage_of_wellFormed hfit ht hw, if_pos hlt]

theorem nextMessage_ne_none : (Decoder.mk b).nextMessage ≠ none := by
  intro hm
  have hc := next_case b
  rw [hm] at hc
  cases hc with
  | overflow h rest len ht hw hover => exact absurd hover (Nat.not_le.mpr (hfit h rest len ht hw))

end Fits

theorem nextMessage_error_iff (b rest : Bytes) :
    (∃ e, (Decoder.mk b).nextMessage = some (.error e, ⟨rest⟩)) ↔
      ∃ h, FirstTerminator b h rest ∧ ∀ len, ¬WellFormed h len := by
  constructor
  · rintro ⟨e, hm⟩
    have hc := next_case b
    rw [hm] at hc
    cases hc with
    | malformed h _ _ ht hw => exact ⟨h, ht, hw⟩
  · rintro ⟨h, ht, hw⟩
    rw [nextMessage_of_terminator ht]
    cases hl : headerLength h with
    | error err => exact ⟨err, rfl⟩
    | ok len => exact absurd ((headerLength_eq_ok_iff h len).mp hl) (hw len)

/-- A round of the inner loop of `read_loop`. -/
def Action.isDecode : Action → Bool
  | .decode _ => true
  | _ => false

namespace Connection

variable {json : Json} {s t : Connection} {h : List (Connection × Action)}

/-- The rounds of the inner loop. -/
def decodes (h : List (Connection × Action)) : ℕ := h.countP fun p => p.2.isDecode

/-- A round behind which another one follows has made the buffer shorter. -/
theorem decodeNext_shrinks {o : WriteOutcome} (hd : (s.decodeNext json o).reader = .decoding) :
    (s.decodeNext json o).decoder.buf.length + 4 ≤ s.decoder.buf.length := by
  cases hn : s.decoder.nextMessage with
  | none =>
    unfold decodeNext at hd
    rw [hn] at hd
    cases hd
  | some p =>
    obtain ⟨r, d⟩ := p
    rw [decoder_decodeNext json hn o]
    apply nextMessage_shrinks hn
    -- a call that waits ends the loop
    rintro rfl
    unfold decodeNext at hd
    rw [hn] at hd
    cases hd

/-- Nothing but a read and the loop itself makes another round possible. -/
theorem decoding_of_step {a : Action} (hst : s.step json a = some t) (ha : a.isDecode = false)
    (hread : ∀ chunk, a ≠ .read chunk) (ht : t.reader = .decoding) :
    s.reader = .decoding ∧ t.decoder = s.decoder := by
  cases read_case hst with
  | other a t _ _ _ hr hd => exact ⟨hr.symm.trans ht, hd⟩
  | read chunk => exact absurd rfl (hread chunk)
  | readEnd t _ h => exact absurd (h.symm.trans ht) (by decide)
  | dropWriter t _ h => exact absurd (h.symm.trans ht) (by decide)
  | clear t _ h => exact absurd (h.symm.trans ht) (by decide)
  | _ => cases ha

/-- However the rounds of the inner loop are interleaved with other steps, there are no more of
them than the buffer has room for terminators, and one. -/
theorem decodes_bounded (hr : Run (Steps (step json)) s h t)
    (hread : ∀ p ∈ h, ∀ chunk, p.2 ≠ .read chunk) :
    4 * decodes h ≤ s.decoder.buf.length + 4 := by
  refine And.right (hr.guarded (fun h t => (t.reader = .decoding →
      4 * decodes h + t.decoder.buf.length ≤ s.decoder.buf.length) ∧
      4 * decodes h ≤ s.decoder.buf.length + 4) (fun _ a => ∀ chunk, a ≠ .read chunk)
    (by simp [decodes]) ?_ hread)
  rintro h u a v - ⟨hleft, hall⟩ hread hst
  have hsnoc : decodes (h ++ [(u, a)]) = decodes h + if a.isDecode then 1 else 0 :=
    countP_snoc _ h (u, a)
  rw [hsnoc]
  cases ha : a.isDecode with
  | false =>
    -- another thread's step: the buffer is the same
    refine ⟨fun hv => ?_, hall⟩
    obtain ⟨hu, hd⟩ := decoding_of_step hst ha hread hv
    rw [hd]
    exact hleft hu
  | true =>
    cases a with
    | decode o =>
      obtain ⟨hu, ⟨⟩⟩ := Option.ite_none_right_eq_some.mp hst
      have hbefore := hleft hu
      refine ⟨fun hv => ?_, ?_⟩
      · have hshrink := decodeNext_shrinks hv
        simp only [↓reduceIte]
        omega
      · simp only [↓reduceIte]
        omega
    | _ => cases ha

/-- The inner loop, run alone, ends. -/
theorem drain_ends (json : Json) (s : Connection) : ∃ h t, Run (Steps (step json)) s h t ∧
    (∀ p ∈ h, p.2.isDecode = true) ∧ t.reader ≠ .decoding := by
  induction hn : s.decoder.buf.length using Nat.strongRecOn generalizing s with
  | ind n ih =>
    subst hn
    by_cases hs : s.reader = .decoding
    · have hstep : Steps (step json) s (.decode .done) (s.decodeNext json .done) := if_pos hs
      by_cases ht : (s.decodeNext json .done).reader = .decoding
      · have hshrink := decodeNext_shrinks ht
        obtain ⟨h, t, hr, hall, hend⟩ := ih _ (by omega) (s.decodeNext json .done) rfl
        refine ⟨_, t, ((Run.start _ s).snoc hstep).trans hr, ?_, hend⟩
        exact List.forall_mem_append.mpr ⟨by simp [Action.isDecode], hall⟩
      · exact ⟨_, _, (Run.start _ s).snoc hstep, by simp [Action.isDecode], ht⟩
    · exact ⟨[], s, .start _ s, by simp, hs⟩

end Connection

/-- `next_message` accepts exactly the frames, waits exactly for the rest of one, and drops
exactly the header otherwise; so the inner loop of `read_loop` ends on every buffer. -/
theorem next_message_accepts_frames (b : Bytes)
    (hfit : ∀ h rest len, FirstTerminator b h rest → WellFormed h len →
      h.length + 4 + len < 2^64) :
    (∀ body rest, (Decoder.mk b).nextMessage = some (.ok (some body), ⟨rest⟩) ↔
      ∃ h, FirstTerminator b h (body ++ rest) ∧ WellFormed h body.length) ∧
    (∀ d, (Decoder.mk b).nextMessage = some (.ok none, d) ↔ d = ⟨b⟩ ∧
      ((∀ p q, b ≠ p ++ crlfcrlf ++ q) ∨
        ∃ h rest len, FirstTerminator b h rest ∧ WellFormed h len ∧ rest.length < len)) ∧
    (∀ rest, (∃ e, (Decoder.mk b).nextMessage = some (.error e, ⟨rest⟩)) ↔
      ∃ h, FirstTerminator b h rest ∧ ∀ len, ¬WellFormed h len) ∧
    (Decoder.mk b).nextMessage ≠ none ∧
    (∀ r d, (Decoder.mk b).nextMessage = some (r, d) → r ≠ .ok none →
      d.buf.length + 4 ≤ b.length) ∧
    ∀ json s, s.decoder = ⟨b⟩ →
      (∀ h t, Run (Steps (Connection.step json)) s h t →
        (∀ p ∈ h, ∀ chunk, p.2 ≠ .read chunk) → 4 * Connection.decodes h ≤ b.length + 4) ∧
      ∃ h t, Run (Steps (Connection.step json)) s h t ∧
        (∀ p ∈ h, p.2.isDecode = true) ∧ t.reader ≠ .decoding := by
  refine ⟨nextMessage_body_iff hfit, nextMessage_none_iff hfit, nextMessage_error_iff b,
    nextMessage_ne_none hfit, fun r d => nextMessage_shrinks, ?_⟩
  intro json s hs
  refine ⟨fun h t hr hread => ?_, Connection.drain_ends json s⟩
  have hb := Connection.decodes_bounded hr hread
  rwa [hs] at hb

/-- A frame, with the beginning of the next one behind it. -/
theorem next_message_accepts_frames_one_and_a_half :
    (Decoder.mk (encode [123, 125] ++ [67, 111])).nextMessage =
      some (.ok (some [123, 125]), ⟨[67, 111]⟩) := by
  have hsplit : encode [123, 125] ++ [67, 111] =
      strBytes (headerLine 2) ++ crlfcrlf ++ ([123, 125] ++ [67, 111]) := by
    rw [encode_eq, List.append_assoc _ [123, 125]]
    rfl
  have hfind := findSubslice_after (strBytes (headerLine 2)) ([123, 125] ++ [67, 111])
    (headerLine_no_cr 2)
  have ht : FirstTerminator (encode [123, 125] ++ [67, 111]) (strBytes (headerLine 2))
      ([123, 125] ++ [67, 111]) := by
    rw [hsplit, findSubslice_iff]
    refine ⟨hfind, ?_, ?_⟩
    · rw [List.append_assoc, List.take_left' rfl]
    · exact (List.drop_left' (by simp [crlfcrlf])).symm
  have hw : WellFormed (strBytes (headerLine 2)) 2 :=
    (headerLength_eq_ok_iff _ _).mp (headerLength_headerLine 2 (by decide))
  refine ((next_message_accepts_frames _ ?_).1 _ _).mpr ⟨_, ht, hw⟩
  intro h rest len ht' hw'
  obtain ⟨rfl, -⟩ := ht'.unique ht
  rw [hw'.unique hw]
  have hlen := headerLine_length 2 (by decide)
  omega

end LspGraph
