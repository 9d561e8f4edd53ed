import Mathlib.Algebra.Group.Nat.Defs
import Mathlib.Data.List.DropRight
import Mathlib.Data.Nat.Basic

/-! The functions of Rust's `str` that a header parser needs, over the characters of the
string, and the decimal form of a `usize`. -/
namespace RustText

/-- `char::is_whitespace`: the Unicode property White_Space. -/
def isWhitespace (c : Char) : Bool :=
  (9 ≤ c.toNat && c.toNat ≤ 13) || c.toNat == 0x20 || c.toNat == 0x85 || c.toNat == 0xA0 ||
    c.toNat == 0x1680 || (0x2000 ≤ c.toNat && c.toNat ≤ 0x200A) || c.toNat == 0x2028 ||
    c.toNat == 0x2029 || c.toNat == 0x202F || c.toNat == 0x205F || c.toNat == 0x3000

def trim (s : List Char) : List Char :=
  (s.dropWhile isWhitespace).rdropWhile isWhitespace

/-- `split("\r\n")`. -/
def splitCrlf : List Char → List (List Char)
  | [] => [[]]
  | '\r' :: '\n' :: s => [] :: splitCrlf s
  | c :: s =>
    match splitCrlf s with
    | [] => [[c]]
    | l :: ls => (c :: l) :: ls

def splitOnce (sep : Char) : List Char → Option (List Char × List Char)
  | [] => none
  | c :: s => if c = sep then some ([], s) else (splitOnce sep s).map fun p => (c :: p.1, p.2)

/-- `eq_ignore_ascii_case`; `Char.toLower` maps the ASCII letters only. -/
def eqIgnoreAsciiCase (s t : List Char) : Bool := s.map Char.toLower == t.map Char.toLower

/-- `parse::<usize>()` with a 64-bit `usize`: an optional plus sign, then digits only. -/
def parseUsize (s : List Char) : Option Nat :=
  let digits := match s with
    | '+' :: rest => rest
    | _ => s
  if digits ≠ [] ∧ digits.all Char.isDigit ∧ Nat.ofDigitChars 10 digits 0 < 2^64 then
    some (Nat.ofDigitChars 10 digits 0)
  else none

theorem isDigit_toNat (c : Char) (h : c.isDigit = true) : 48 ≤ c.toNat ∧ c.toNat ≤ 57 := by
  simp only [Char.isDigit, Bool.and_eq_true, decide_eq_true_eq] at h
  exact h

theorem isWhitespace_of_isDigit (c : Char) (h : c.isDigit = true) : isWhitespace c = false := by
  have hc := isDigit_toNat c h
  simp only [isWhitespace, Bool.or_eq_false_iff, Bool.and_eq_false_iff, decide_eq_false_iff_not,
    beq_eq_false_iff_ne]
  omega

theorem ne_of_isDigit (c d : Char) (h : c.isDigit = true) (hd : d.isDigit = false) : c ≠ d := by
  rintro rfl
  exact absurd (h.symm.trans hd) (by decide)

theorem all_isDigit_toDigits (n : Nat) : ∀ c ∈ Nat.toDigits 10 n, c.isDigit = true :=
  fun _ hc => Nat.isDigit_of_mem_toDigits (by decide) (by decide) hc

/-- The decimal form of a `usize` parses back to it. -/
theorem parseUsize_toDigits (n : Nat) (hn : n < 2^64) :
    parseUsize (Nat.toDigits 10 n) = some n := by
  have hall := all_isDigit_toDigits n
  have hval : Nat.ofDigitChars 10 (Nat.toDigits 10 n) 0 = n :=
    Nat.ofDigitChars_toDigits (by decide) (by decide)
  have hdig : (match Nat.toDigits 10 n with
      | '+' :: rest => rest
      | _ => Nat.toDigits 10 n) = Nat.toDigits 10 n := by
    split
    · rename_i rest he
      have hp := hall '+' (by rw [he]; exact List.mem_cons_self)
      exact absurd hp (by decide)
    · rfl
  unfold parseUsize
  simp only [hdig, hval]
  rw [if_pos ⟨Nat.toDigits_ne_nil, List.all_eq_true.mpr hall, hn⟩]

/-- Nothing but a leading blank is trimmed from a blank and digits. -/
theorem trim_blank_digits (ds : List Char) (hd : ∀ c ∈ ds, c.isDigit = true) :
    trim (' ' :: ds) = ds := by
  have hblank : isWhitespace ' ' = true := by decide
  have hfront : ds.dropWhile isWhitespace = ds := by
    apply List.dropWhile_eq_self_iff.mpr
    intro hl
    rw [isWhitespace_of_isDigit _ (hd _ (List.getElem_mem hl))]
    decide
  have hback : ds.rdropWhile isWhitespace = ds := by
    apply List.rdropWhile_eq_self_iff.mpr
    intro hl
    rw [isWhitespace_of_isDigit _ (hd _ (List.getLast_mem hl))]
    decide
  unfold trim
  rw [List.dropWhile_cons_of_pos hblank, hfront, hback]

/-- The lines of a text that CRLF separates. -/
structure CrlfLines (s : List Char) (lines : List (List Char)) : Prop where
  ne_nil : lines ≠ []
  joined : ['\r', '\n'].intercalate lines = s
  free : ∀ line ∈ lines, ¬['\r', '\n'] <:+: line

/-- A character in front of a line makes a CRLF only together with the first one. -/
theorem free_cons_iff (c : Char) (l : List Char) : ¬['\r', '\n'] <:+: c :: l ↔
    ¬(c = '\r' ∧ ['\n'] <+: l) ∧ ¬['\r', '\n'] <:+: l := by
  rw [List.infix_cons_iff, List.cons_prefix_cons, not_or, eq_comm]

theorem splitCrlf_cons {c : Char} {s : List Char} (h : ¬(c = '\r' ∧ ['\n'] <+: s))
    {l : List Char} {ls : List (List Char)} (hs : splitCrlf s = l :: ls) :
    splitCrlf (c :: s) = (c :: l) :: ls := by
  unfold splitCrlf
  split
  · contradiction
  · rename_i s' he
    obtain ⟨rfl, rfl⟩ := List.cons.inj he
    exact absurd ⟨rfl, s', rfl⟩ h
  · rename_i c' s' _ he
    obtain ⟨rfl, rfl⟩ := List.cons.inj he
    rw [hs]

theorem splitCrlf_of_free {l : List Char} (h : ¬['\r', '\n'] <:+: l) : splitCrlf l = [l] := by
  induction l with
  | nil => rfl
  | cons c l ih =>
    obtain ⟨hc, hl⟩ := (free_cons_iff c l).mp h
    exact splitCrlf_cons hc (ih hl)

theorem splitCrlf_append {l : List Char} (s : List Char) (h : ¬['\r', '\n'] <:+: l) :
    splitCrlf (l ++ '\r' :: '\n' :: s) = l :: splitCrlf s := by
  induction l with
  | nil => rfl
  | cons c l ih =>
    obtain ⟨hc, hl⟩ := (free_cons_iff c l).mp h
    refine splitCrlf_cons ?_ (ih hl)
    -- the line feed of the separator is not the first character behind the line
    rintro ⟨rfl, hpre⟩
    cases l with
    | nil => exact absurd (List.cons_prefix_cons.mp hpre).1 (by decide)
    | cons d l =>
      obtain ⟨rfl, -⟩ := List.cons_prefix_cons.mp hpre
      exact hc ⟨rfl, List.cons_prefix_cons.mpr ⟨rfl, List.nil_prefix⟩⟩

/-- `split("\r\n")` gives the lines, and there are no others. -/
theorem splitCrlf_eq_iff (s : List Char) (lines : List (List Char)) :
    splitCrlf s = lines ↔ CrlfLines s lines := by
  constructor
  · rintro rfl
    fun_induction splitCrlf s with
    | case1 => exact ⟨by simp, by simp, by simp⟩
    | case2 s ih =>
      refine ⟨by simp, ?_, List.forall_mem_cons.mpr ⟨by simp, ih.free⟩⟩
      rw [List.intercalate_cons_of_ne_nil ih.ne_nil, ih.joined]
      rfl
    | case3 c s hc hs ih => exact absurd hs ih.ne_nil
    | case4 c s hc l ls hs ih =>
      rw [hs] at ih
      have hfree := List.forall_mem_cons.mp ih.free
      refine ⟨by simp, ?_, List.forall_mem_cons.mpr ⟨?_, hfree.2⟩⟩
      · rw [List.intercalate_cons_cons_left, ih.joined]
      · rw [free_cons_iff]
        refine ⟨?_, hfree.1⟩
        rintro ⟨rfl, l', rfl⟩
        have hjoined := ih.joined
        rw [List.singleton_append, List.intercalate_cons_cons_left] at hjoined
        exact hc _ rfl hjoined.symm
  · rintro ⟨hne, rfl, hfree⟩
    induction lines with
    | nil => exact absurd rfl hne
    | cons l ls ih =>
      obtain ⟨hl, hls⟩ := List.forall_mem_cons.mp hfree
      cases ls with
      | nil => rw [List.intercalate_singleton, splitCrlf_of_free hl]
      | cons l' ls =>
        have hrest := ih (by simp) hls
        rw [List.intercalate_cons_cons, List.append_assoc]
        exact (splitCrlf_append _ hl).trans (congrArg (l :: ·) hrest)

theorem splitCrlf_of_notMem (s : List Char) (h : '\r' ∉ s) : splitCrlf s = [s] :=
  splitCrlf_of_free fun hin => h (hin.subset List.mem_cons_self)

theorem splitOnce_append (sep : Char) (s t : List Char) (h : sep ∉ s) :
    splitOnce sep (s ++ sep :: t) = some (s, t) := by
  induction s with
  | nil => simp [splitOnce]
  | cons c s ih =>
    have hc : c ≠ sep := fun he => h (he ▸ List.mem_cons_self)
    have ht := ih fun hm => h (List.mem_cons_of_mem c hm)
    simp only [List.cons_append, splitOnce, if_neg hc, ht, Option.map_some]

theorem splitOnce_eq_some_iff (sep : Char) (s a b : List Char) :
    splitOnce sep s = some (a, b) ↔ s = a ++ sep :: b ∧ sep ∉ a := by
  constructor
  · induction s generalizing a with
    | nil => simp [splitOnce]
    | cons c s ih =>
      intro h
      unfold splitOnce at h
      split_ifs at h with hc
      · obtain ⟨rfl, rfl⟩ := Prod.mk.inj (Option.some.inj h)
        exact ⟨by rw [hc]; rfl, List.not_mem_nil⟩
      · obtain ⟨⟨a', b'⟩, hs, hp⟩ := Option.map_eq_some_iff.mp h
        obtain ⟨rfl, rfl⟩ := Prod.mk.inj hp
        obtain ⟨rfl, hm⟩ := ih a' hs
        refine ⟨rfl, fun hmem => ?_⟩
        rcases List.mem_cons.mp hmem with he | hmem
        · exact hc he.symm
        · exact hm hmem
  · rintro ⟨rfl, hm⟩
    exact splitOnce_append sep a b hm

theorem splitOnce_eq_none_iff (sep : Char) (s : List Char) :
    splitOnce sep s = none ↔ sep ∉ s := by
  induction s with
  | nil => simp [splitOnce]
  | cons c s ih =>
    unfold splitOnce
    split_ifs with hc
    · simp [hc]
    · rw [Option.map_eq_none_iff, ih, List.mem_cons, not_or]
      exact (and_iff_right (Ne.symm hc)).symm

end RustText
