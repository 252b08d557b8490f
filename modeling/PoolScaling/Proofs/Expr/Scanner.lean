import PoolScaling.Expr.Scanner
import PoolScaling.Proofs.Expr.Tokens

/-! Scanning by bytes.

A scanner that only has a byte offset goes from boundary to boundary: wherever it looks,
the rest of the source begins with a character or is empty (`Ahead`). So no slice is cut
in the middle of a character, every round moves on, and the tokens are those that the
characters have (`scan_eq`). -/
namespace PoolScaling.Expr
open Number Text

namespace Scanner

/-- The source has `rest` from byte `i` on, where a character begins unless it ends. -/
def Ahead (source : String) (i : Nat) (rest : List Char) : Prop :=
  ∃ before, source.toList = before ++ rest ∧ i = byteCount before

variable {source : String} {i : Nat} {cs rest : List Char} {c c' : Char} {p : Char → Bool}

theorem ahead_start (source : String) : Ahead source 0 source.toList := ⟨[], rfl, rfl⟩

namespace Ahead

theorem after (h : Ahead source i (cs ++ rest)) : Ahead source (i + byteCount cs) rest := by
  obtain ⟨before, hsource, rfl⟩ := h
  exact ⟨before ++ cs, by rw [hsource, List.append_assoc], (byteCount_append _ _).symm⟩

theorem after_ascii (hc : c.toNat < 128) (h : Ahead source i (c :: cs)) : Ahead source (i + 1) cs := by
  have hone : Ahead source i ([c] ++ cs) := h
  have hafter := hone.after
  rwa [byteCount_cons, byteCount_nil, utf8Size_of_ascii hc] at hafter

/-! ### What is read at an offset -/

theorem drop_bytes (h : Ahead source i rest) : (bytes source).drop i = encode rest := by
  obtain ⟨before, hsource, rfl⟩ := h
  rw [bytes, toList_toByteArray, hsource, encode_append, ← length_encode, List.drop_left]

theorem charAt? (h : Ahead source i rest) : charAt? source i = (encode rest).head?.map Char.ofUInt8 := by
  rw [Scanner.charAt?, ← h.drop_bytes, List.head?_drop]

theorem any_charAt? (h : Ahead source i rest) (hp : Coarse p) :
    (Scanner.charAt? source i).any p = rest.head?.any p := by
  rw [h.charAt?, any_head?_encode hp]

theorem passOver (h : Ahead source i rest) (hp : Coarse p) :
    passOver p source i = i + byteCount (rest.takeWhile p) := by
  rw [Scanner.passOver, h.drop_bytes, takeWhile_encode hp, length_encode]

/-! ### Slices -/

theorem slice (h : Ahead source i (cs ++ rest)) :
    slice source i (i + byteCount cs) = .ok (String.ofList cs) := by
  obtain ⟨before, hsource, rfl⟩ := h
  have hstart : (String.Pos.Raw.mk (byteCount before)).IsValid source := isValid_byteCount hsource
  have hstop : (String.Pos.Raw.mk (byteCount before + byteCount cs)).IsValid source := by
    rw [← byteCount_append]
    exact isValid_byteCount (by rw [hsource, List.append_assoc])
  rw [Scanner.slice, dif_pos ⟨Nat.le_add_right _ _, hstart, hstop⟩]
  rw [extract_eq hsource rfl (byteCount_append _ _).symm]

theorem sliceFrom (h : Ahead source i rest) : sliceFrom source i = .ok rest := by
  obtain ⟨before, hsource, rfl⟩ := h
  have hall : Ahead source (byteCount before) (rest ++ []) := ⟨before, by rw [hsource, List.append_nil], rfl⟩
  have hslice := hall.slice
  rw [← byteCount_append, ← hsource, ← utf8ByteSize_eq] at hslice
  rw [Scanner.sliceFrom, hslice]
  exact congrArg Except.ok String.toList_ofList

end Ahead

/-! ### Numbers -/

def isExponentMark (c : Char) : Bool := c = 'e' || c = 'E'

def isSign (c : Char) : Bool := c = '+' || c = '-'

theorem coarse_isExponentMark : Coarse isExponentMark := .of_ascii fun c hc => by
  simp only [isExponentMark, Bool.or_eq_true, decide_eq_true_eq] at hc
  obtain rfl | rfl := hc <;> decide

theorem coarse_isSign : Coarse isSign := .of_ascii fun c hc => by
  simp only [isSign, Bool.or_eq_true, decide_eq_true_eq] at hc
  obtain rfl | rfl := hc <;> decide

/-- Digits at `j`, or else `i` again. -/
theorem passDigits_eq {j : Nat} {ds : List Char} (h : Ahead source j ds) (i : Nat) :
    (if (charAt? source j).any Char.isDigit then passOver Char.isDigit source j else i) =
      if (ds.takeWhile Char.isDigit).isEmpty then i else j + byteCount (ds.takeWhile Char.isDigit) := by
  rw [h.any_charAt? coarse_isDigit, h.passOver coarse_isDigit]
  cases ds with
  | nil => rfl
  | cons d ds =>
    cases hd : d.isDigit with
    | true => simp [hd]
    | false => simp [hd]

/-- A sign at `i`, or nothing. -/
theorem passSign_eq (h : Ahead source i cs) :
    (if (charAt? source i).any isSign then i + 1 else i) = i + byteCount (Exponent.signAt cs).1.toList ∧
      Ahead source (if (charAt? source i).any isSign then i + 1 else i) (Exponent.signAt cs).2 := by
  rw [h.any_charAt? coarse_isSign]
  cases cs with
  | nil => exact ⟨rfl, h⟩
  | cons s cs =>
    by_cases hs : s = '-' ∨ s = '+'
    · have hascii : s.toNat < 128 := by obtain rfl | rfl := hs <;> decide
      have hany : (s :: cs).head?.any isSign = true := by simpa [isSign] using hs.symm
      rw [if_pos hany, Exponent.signAt_sign hs]
      refine ⟨?_, h.after_ascii hascii⟩
      rw [Option.toList_some, byteCount_cons, byteCount_nil, utf8Size_of_ascii hascii]
    · have hany : ¬ (s :: cs).head?.any isSign = true := by simpa [isSign, and_comm] using hs
      rw [if_neg hany, Exponent.signAt_other fun c hc => by cases hc; exact hs]
      exact ⟨rfl, h⟩

theorem passExponent_eq (h : Ahead source i rest) :
    passExponent source i = i + byteCount ((Decimal.exponentAt rest).1.elim [] Exponent.text) := by
  have hpass : passExponent source i =
      if (charAt? source i).any isExponentMark then
        let j := if (charAt? source (i + 1)).any isSign then i + 1 + 1 else i + 1
        if (charAt? source j).any Char.isDigit then passOver Char.isDigit source j else i
      else i := rfl
  rw [hpass, h.any_charAt? coarse_isExponentMark]
  cases rest with
  | nil => rfl
  | cons mark cs =>
    by_cases hmark : mark = 'e' ∨ mark = 'E'
    · have hascii : mark.toNat < 128 := by obtain rfl | rfl := hmark <;> decide
      have hany : (mark :: cs).head?.any isExponentMark = true := by simpa [isExponentMark] using hmark
      obtain ⟨hsign, hdigits⟩ := passSign_eq (h.after_ascii hascii)
      rw [if_pos hany]
      dsimp only
      rw [passDigits_eq hdigits, hsign, Decimal.exponentAt, Exponent.scan?_cons, if_pos hmark]
      split
      · rfl
      · simp only [Option.elim_some, Exponent.text, byteCount_append, byteCount_cons, utf8Size_of_ascii hascii]
        omega
    · have hany : ¬ (mark :: cs).head?.any isExponentMark = true := by simpa [isExponentMark] using hmark
      rw [if_neg hany, Decimal.exponentAt, Exponent.scan?_cons, if_neg hmark]
      rfl

theorem passNumber_eq (h : Ahead source i rest) :
    passNumber source i = i + byteCount (Decimal.scan rest).1.text := by
  obtain ⟨ws, more, rfl, hw, hmore, -⟩ := Decimal.exists_whole rest
  have hwhole : passOver Char.isDigit source i = i + byteCount ws := by
    rw [h.passOver coarse_isDigit, (Decimal.digits_stop hw hmore).1]
  have hafter := h.after
  unfold passNumber
  dsimp only
  rw [hwhole, hafter.any_charAt? (coarse_eq (by decide))]
  by_cases hpoint : '.' ∈ more.head?
  · obtain ⟨ds, rfl⟩ := List.head?_eq_some_iff.mp hpoint
    have hfraction := hafter.after_ascii (by decide)
    have hpass := hfraction.passOver coarse_isDigit
    have hsplit := List.takeWhile_append_dropWhile (p := Char.isDigit) (l := ds)
    rw [← hsplit] at hfraction
    rw [if_pos (by simp), hpass, passExponent_eq hfraction.after, Decimal.scan_point hw]
    simp only [Decimal.text, byteCount_append, if_true, byteCount_cons, utf8Size_of_ascii (c := '.') (by decide)]
    omega
  · rw [if_neg ?_, passExponent_eq hafter, Decimal.scan_whole hw hmore hpoint]
    · simp [Decimal.text, Nat.add_assoc]
    · rw [Option.any_eq_true]
      rintro ⟨c, hc, heq⟩
      exact hpoint (of_decide_eq_true heq ▸ hc)

/-! ### Rounds -/

/-- What a lexeme of the characters is to the scanner. -/
def ofLexeme (i : Nat) : Except Flaw Lexeme → Except (Failure Defect) Found
  | .ok l => .ok (.token l.content (i + l.size))
  | .error flaw => .error (.error ⟨i, flaw⟩)

theorem begins_eq (h : Ahead source i (c :: cs)) :
    (c.isDigit || (c = '.' && (charAt? source (i + 1)).any Char.isDigit)) = Decimal.begins c cs := by
  unfold Decimal.begins
  by_cases hc : c = '.'
  · subst hc
    rw [(h.after_ascii (by decide)).any_charAt? coarse_isDigit]
  · rw [decide_eq_false hc, Bool.false_and, Bool.false_and]

theorem coarse_isNameStart : Coarse isNameStart := .of_ascii fun _ h => (Lexeme.of_isNameStart h).1

theorem coarse_isNameChar : Coarse isNameChar := .of_ascii fun _ => Lexeme.ascii_of_isNameChar

/-- At a lexeme, all slices are at boundaries, and it is what the characters make of it. -/
theorem lexeme_eq (h : Ahead source i (c :: cs)) : lexeme source i c = ofLexeme i (Lexeme.scan c cs) := by
  unfold lexeme
  rw [begins_eq h]
  by_cases hbegins : Decimal.begins c cs = true
  · have htext : Ahead source i ((Decimal.scan (c :: cs)).1.text ++ (Decimal.scan (c :: cs)).2) := by
      rw [Decimal.text_append_scan]
      exact h
    rw [if_pos hbegins, passNumber_eq h]
    dsimp only
    rw [htext.slice, Lexeme.scan_number hbegins]
    dsimp only [bind, Except.bind]
    rw [Decimal.ofText?_text (Decimal.written_scan hbegins)]
    rfl
  rw [if_neg hbegins]
  rw [Bool.not_eq_true] at hbegins
  by_cases hquote : c = '"' ∨ c = '\''
  · have hif : (c = '"' || c = '\'') = true := by simpa using hquote
    rw [if_pos hif, h.sliceFrom, Lexeme.scan_string hquote]
    dsimp only [bind, Except.bind, List.headD_cons, List.tail_cons]
    cases scanString c cs with
    | none => rfl
    | some found =>
      obtain ⟨value, size, rest⟩ := found
      dsimp only [ofLexeme]
      rw [Nat.add_assoc, Nat.add_comm 1]
  have hif : ¬ (c = '"' || c = '\'') = true := by simpa using hquote
  rw [if_neg hif]
  by_cases hname : isNameStart c = true
  · have htake : (c :: cs).takeWhile isNameChar = c :: cs.takeWhile isNameChar :=
      List.takeWhile_cons_of_pos (Lexeme.isNameChar_of_isNameStart hname)
    have htext : Ahead source i ((c :: cs.takeWhile isNameChar) ++ cs.dropWhile isNameChar) := by
      rw [List.cons_append, List.takeWhile_append_dropWhile]
      exact h
    rw [if_pos hname, h.passOver coarse_isNameChar, htake]
    dsimp only
    rw [htext.slice, Lexeme.scan_name hname, Lexeme.byteCount_name hname]
    rfl
  rw [if_neg hname]
  rw [Bool.not_eq_true] at hname
  rw [h.sliceFrom, Lexeme.scan_mark hbegins hquote hname]
  dsimp only [bind, Except.bind, List.headD_cons]
  cases Mark.leading? (c :: cs) <;> rfl

/-- A round takes one white character, one comment or one lexeme. -/
theorem round_eq (h : Ahead source i (c :: cs)) :
    round source i c =
      if c = '\n' then .ok (.gap true (i + 1))
      else if isSpace c then .ok (.gap false (i + 1))
      else if c = '/' && cs.head? = some '/' then
        .ok (.gap false (i + byteCount ((c :: cs).takeWhile (· ≠ '\n'))))
      else ofLexeme i (Lexeme.scan c cs) := by
  have hcomment : ['/', '/'].isPrefixOf (c :: cs) = (c = '/' && cs.head? = some '/') := by
    have hbeq : ∀ d : Char, ('/' == d) = decide (d = '/') := fun d => by
      rw [Bool.eq_iff_iff, beq_iff_eq, decide_eq_true_eq]
      exact eq_comm
    cases cs with
    | nil => rw [List.isPrefixOf_cons_cons, hbeq, List.isPrefixOf_cons_nil]; rfl
    | cons d ds => simp [List.isPrefixOf_cons_cons, hbeq]
  unfold round
  rw [h.sliceFrom, h.passOver (coarse_ne (by decide)), lexeme_eq h]
  dsimp only [bind, Except.bind]
  rw [hcomment]

/-- What a byte is read as takes the same round as the character it begins. -/
theorem round_congr (h : ∀ p, Coarse p → p c' = p c) (source : String) (i : Nat) :
    round source i c' = round source i c := by
  have heq : ∀ a : Char, a.toNat < 128 → (c' = a ↔ c = a) := fun a ha => by
    simpa using h _ (coarse_eq ha)
  have hspace : isSpace c' = isSpace c :=
    h _ (.of_ascii fun _ hs => Gap.ascii_of_isWhite (Gap.isWhite_of_isSpace hs))
  unfold round lexeme
  simp only [heq '\n' (by decide), heq '.' (by decide), heq '"' (by decide), heq '\'' (by decide), hspace,
    h _ coarse_isDigit, h _ coarse_isNameStart]

theorem exists_charAt? (h : Ahead source i (c :: cs)) :
    ∃ c', charAt? source i = some c' ∧ round source i c' = round source i c := by
  obtain ⟨b, bs, hbs⟩ := List.exists_cons_of_ne_nil (@String.utf8EncodeChar_ne_nil c)
  refine ⟨Char.ofUInt8 b, ?_, round_congr (fun p hp => hp.ofUInt8 ?_) source i⟩
  · rw [h.charAt?, encode_cons, hbs]
    rfl
  · rw [hbs]
    exact List.mem_cons_self

/-! ### Gaps in parts -/

/-- A line feed before all tokens is one before the first. -/
def broken (newline : Bool) : List Token → List Token
  | [] => []
  | t :: ts => { t with newlineBefore := newline || t.newlineBefore } :: ts

theorem broken_false (ts : List Token) : broken false ts = ts := by cases ts <;> rfl

theorem broken_broken (m n : Bool) (ts : List Token) : broken m (broken n ts) = broken (m || n) ts := by
  cases ts with
  | nil => rfl
  | cons t ts => rw [broken, broken, broken, Bool.or_assoc]

theorem broken_append {newline : Bool} {ts : List Token} (h : ts ≠ []) (us : List Token) :
    broken newline (ts ++ us) = broken newline ts ++ us := by
  cases ts with
  | nil => exact absurd rfl h
  | cons t ts => rfl

theorem newlineBefore_of_head_broken {ts : List Token} :
    ∀ t ∈ (broken true ts).head?, t.newlineBefore = true := by
  cases ts with
  | nil => rintro t ⟨⟩
  | cons first ts =>
    rintro t ⟨⟩
    rfl

/-- The first part of a gap moves what comes after it. -/
theorem tokensAfter_part (n : Bool) (i k : Nat) (g : Gap) :
    tokensAfter i ⟨n || g.newline, k + g.size, g.rest⟩ = (tokensAfter (i + k) g).map (broken n) := by
  unfold tokensAfter
  dsimp only
  cases g.rest with
  | nil => rfl
  | cons c cs =>
    dsimp only
    rw [Nat.add_assoc]
    cases Lexeme.scan c cs with
    | error flaw => rfl
    | ok l =>
      dsimp only
      cases tokensFrom (i + (k + g.size) + l.size) l.rest <;> rfl

theorem tokensFrom_newline (i : Nat) (cs : List Char) :
    tokensFrom i ('\n' :: cs) = (tokensFrom (i + 1) cs).map (broken true) := by
  rw [tokensFrom_eq, tokensFrom_eq, ← tokensAfter_part, Nat.add_comm 1]
  rfl

theorem tokensFrom_space (hc : c ≠ '\n') (hspace : isSpace c = true) (i : Nat) (cs : List Char) :
    tokensFrom i (c :: cs) = (tokensFrom (i + 1) cs).map (broken false) := by
  rw [tokensFrom_eq, tokensFrom_eq, ← tokensAfter_part, Gap.scan, if_neg hc, if_neg (by decide), if_pos hspace,
    Nat.add_comm 1, Bool.false_or]

theorem tokensFrom_comment (hcomment : (c = '/' && cs.head? = some '/') = true) (i : Nat) :
    tokensFrom i (c :: cs) =
      (tokensFrom (i + byteCount ((c :: cs).takeWhile (· ≠ '\n'))) ((c :: cs).dropWhile (· ≠ '\n'))).map
        (broken false) := by
  have hslash : c = '/' := by
    rw [Bool.and_eq_true, decide_eq_true_eq] at hcomment
    exact hcomment.1
  subst hslash
  have hone : ('/').utf8Size = 1 := rfl
  rw [List.takeWhile_cons_of_pos (by decide), List.dropWhile_cons_of_pos (by decide), byteCount_cons, hone,
    tokensFrom_eq, tokensFrom_eq, ← tokensAfter_part, Gap.scan, if_neg (by decide), if_neg (by decide),
    if_neg (by decide), if_pos hcomment, Gap.scan_comment, Bool.false_or]
  dsimp only
  rw [Nat.add_comm _ 1, Nat.add_assoc]

theorem tokensFrom_lexeme (hc : c ≠ '\n') (hspace : ¬ isSpace c = true)
    (hcomment : ¬ (c = '/' && cs.head? = some '/') = true) (i : Nat) :
    tokensFrom i (c :: cs) = tokensAfter i ⟨false, 0, c :: cs⟩ := by
  rw [tokensFrom_eq, Gap.scan, if_neg hc, if_neg (by decide), if_neg hspace, if_neg hcomment]

/-! ### The run -/

theorem tokensAt_stop (h : Ahead source i []) (newline : Bool) : tokensAt source i newline = .ok [] := by
  have hnone : charAt? source i = none := h.charAt?
  rw [tokensAt]
  split
  · rfl
  · rename_i hsome
    rw [hnone] at hsome
    cases hsome

/-- What becomes of what a round found at `i`. -/
def tokensFound (source : String) (i : Nat) (newline : Bool) (found : Found) :
    Except (Failure Defect) (List Token) :=
  match found.content with
  | none => tokensAt source found.next (newline || found.newline)
  | some content => (tokensAt source found.next false).map (⟨content, i, newline⟩ :: ·)

theorem tokensAt_round (h : Ahead source i (c :: cs)) (newline : Bool) :
    tokensAt source i newline =
      match round source i c with
      | .error e => .error e
      | .ok found => if i < found.next then tokensFound source i newline found else .error .crash := by
  obtain ⟨c', hc, hround⟩ := exists_charAt? h
  rw [tokensAt]
  split
  · rename_i hnone
    rw [hc] at hnone
    cases hnone
  · rename_i d hd
    rw [hc] at hd
    cases hd
    rw [hround]
    cases round source i c <;> rfl

/-- Whether the scanner finds the tokens that the characters have, wherever fewer than `n`
of them are left. -/
def Follows (source : String) (n : Nat) : Prop :=
  ∀ i rest newline, Ahead source i rest → rest.length < n →
    tokensAt source i newline = ((tokensFrom i rest).map (broken newline)).mapError .error

/-- A part of a gap is passed. -/
theorem Follows.gap {m : Bool} {text : List Char} {next : Nat} (hfollows : Follows source text.length)
    (hpart : tokensFrom i text = (tokensFrom next rest).map (broken m)) (h : Ahead source next rest)
    (hlength : rest.length < text.length) (hnext : i < next) (newline : Bool) :
    (if i < (Found.gap m next).next then tokensFound source i newline (Found.gap m next) else .error .crash) =
      ((tokensFrom i text).map (broken newline)).mapError .error := by
  have hmoves : i < (Found.gap m next).next := hnext
  rw [if_pos hmoves]
  show tokensAt source next (newline || m) = _
  rw [hfollows _ _ _ h hlength, hpart]
  cases tokensFrom next rest with
  | error d => rfl
  | ok ts => exact congrArg Except.ok (broken_broken newline m ts).symm

/-- A token is found. -/
theorem Follows.token {l : Lexeme} (hfollows : Follows source (c :: cs).length) (h : Ahead source i (c :: cs))
    (hscan : Lexeme.scan c cs = .ok l) (newline : Bool) :
    (if i < i + l.size then (tokensAt source (i + l.size) false).map (⟨l.content, i, newline⟩ :: ·)
      else .error .crash) =
      (((tokensFrom (i + l.size) l.rest).map (⟨l.content, i, false⟩ :: ·)).map (broken newline)).mapError
        .error := by
  obtain ⟨lexeme, hcs, hlexeme, hsize⟩ := Lexeme.exists_of_scan hscan
  have hafter : Ahead source (i + l.size) l.rest := by
    rw [hsize]
    exact Ahead.after (hcs ▸ h)
  have hmoves : i < i + l.size := by
    rw [hsize]
    exact Nat.lt_add_of_pos_right (byteCount_pos hlexeme.ne_nil)
  rw [if_pos hmoves, hfollows _ _ _ hafter (Lexeme.scan_length_lt hscan)]
  cases tokensFrom (i + l.size) l.rest with
  | error d => rfl
  | ok ts =>
    have hfirst : (⟨l.content, i, newline⟩ :: broken false ts : List Token) =
        broken newline (⟨l.content, i, false⟩ :: ts) := by
      rw [broken_false, broken, Bool.or_false]
    exact congrArg Except.ok hfirst

/-- **One round.** Where a character begins, a round reaches the next boundary with what
the characters have there. -/
theorem Follows.round (hfollows : Follows source (c :: cs).length) (h : Ahead source i (c :: cs)) (newline : Bool) :
    tokensAt source i newline = ((tokensFrom i (c :: cs)).map (broken newline)).mapError .error := by
  rw [tokensAt_round h, round_eq h]
  by_cases hc : c = '\n'
  · subst hc
    rw [if_pos rfl]
    exact hfollows.gap (tokensFrom_newline i cs) (h.after_ascii (by decide)) (Nat.lt_succ_self _) (Nat.lt_succ_self i) _
  rw [if_neg hc]
  by_cases hspace : isSpace c = true
  · have hascii := Gap.ascii_of_isWhite (Gap.isWhite_of_isSpace hspace)
    rw [if_pos hspace]
    exact hfollows.gap (tokensFrom_space hc hspace i cs) (h.after_ascii hascii) (Nat.lt_succ_self _)
      (Nat.lt_succ_self i) _
  rw [if_neg hspace]
  by_cases hcomment : (c = '/' && cs.head? = some '/') = true
  · -- The first stroke is no line feed, so the comment has a byte at least.
    have hpart := tokensFrom_comment hcomment i
    have hsplit : (c :: cs).takeWhile (· ≠ '\n') ++ (c :: cs).dropWhile (· ≠ '\n') = c :: cs :=
      List.takeWhile_append_dropWhile
    have hstroke : (c :: cs).takeWhile (· ≠ '\n') ≠ [] := by
      rw [List.takeWhile_cons_of_pos (by simpa using hc)]
      exact List.cons_ne_nil _ _
    have hshorter : ((c :: cs).dropWhile (· ≠ '\n')).length < (c :: cs).length := by
      rw [List.dropWhile_cons_of_pos (by simpa using hc)]
      exact Nat.lt_succ_of_le (List.dropWhile_suffix _).length_le
    rw [if_pos hcomment]
    exact hfollows.gap hpart (Ahead.after (hsplit.symm ▸ h)) hshorter
      (Nat.lt_add_of_pos_right (byteCount_pos hstroke)) _
  rw [if_neg hcomment, tokensFrom_lexeme hc hspace hcomment, tokensAfter]
  dsimp only
  cases hscan : Lexeme.scan c cs with
  | error flaw => rfl
  | ok l => exact hfollows.token h hscan newline

theorem follows (source : String) (n : Nat) : Follows source n := by
  induction n with
  | zero => exact fun _ _ _ _ hlt => absurd hlt (Nat.not_lt_zero _)
  | succ n ih =>
    intro i rest newline h hlt
    cases rest with
    | nil =>
      rw [tokensAt_stop h, tokensFrom_eq]
      rfl
    | cons c cs =>
      refine Follows.round (fun i rest newline h hshorter => ?_) h newline
      exact ih i rest newline h (Nat.lt_of_lt_of_le hshorter (Nat.le_of_lt_succ hlt))

/-- **The scanner.** It finds the tokens that the characters have: no slice is cut in the
middle of a character, and every round moves on. -/
theorem scan_eq (source : String) : scan source = (tokenize source).mapError .error := by
  have hrun := follows source _ 0 source.toList false (ahead_start source) (Nat.lt_succ_self _)
  have hid : broken false = id := funext broken_false
  rw [hid, Except.map_id] at hrun
  exact hrun

end Scanner

end PoolScaling.Expr
