import PoolScaling.Proofs.Expr.Lexeme

/-! Sources and their tokens.

A source is a gap, then lexemes with a gap after each, all of them longest at their
places. There is one way to split it so, as far as it goes, and tokenizing finds it: either
nothing is left, or a character is left that begins neither (`tokenize_exact`). -/
namespace PoolScaling.Expr
open Text

/-- The text after `before` is a gap and then lexemes, each with a gap after it, up to
`rest`; these are its tokens. -/
inductive Splits (rest : List Char) : List Char → List Char → List Token → Prop where
  | gap {before gap : List Char} (hgap : LongestGap gap rest) : Splits rest before (gap ++ rest) []
  | lexeme {before gap lexeme text : List Char} {content : Content} {ts : List Token}
    (hgap : LongestGap gap (lexeme ++ text)) (hlexeme : LongestLexeme content lexeme text)
    (h : Splits rest (before ++ gap ++ lexeme) text ts) :
    Splits rest before (gap ++ (lexeme ++ text))
      (⟨content, byteCount (before ++ gap), decide ('\n' ∈ gap)⟩ :: ts)

/-- Neither a gap nor a lexeme begins here. -/
structure Stuck (c : Char) (cs : List Char) : Prop where
  gap : LongestGap [] (c :: cs)
  lexeme : ∀ content lexeme, IsLexeme content lexeme → ¬ lexeme <+: c :: cs

variable {before gap lexeme text rest cs : List Char} {c : Char} {position : Nat} {ts : List Token}

/-! ### One token -/

/-- What becomes of a gap that scanning found. -/
def tokensAfter (position : Nat) (g : Gap) : Except Defect (List Token) :=
  match g.rest with
  | [] => .ok []
  | c :: rest =>
    match Lexeme.scan c rest with
    | .error flaw => .error ⟨position + g.size, flaw⟩
    | .ok l =>
      (tokensFrom (position + g.size + l.size) l.rest).map (⟨l.content, position + g.size, g.newline⟩ :: ·)

theorem tokensFrom_eq (position : Nat) (cs : List Char) :
    tokensFrom position cs = tokensAfter position (Gap.scan false cs) := by
  rw [tokensFrom]
  split
  · rename_i hrest
    rw [tokensAfter, hrest]
  · rename_i c rest hrest
    split
    · rename_i hscan
      simp only [tokensAfter, hrest, hscan]
    · rename_i l hscan
      simp only [tokensAfter, hrest, hscan]
      cases tokensFrom (position + (Gap.scan false cs).size + l.size) l.rest <;> rfl

theorem tokensFrom_of_longestGap (h : LongestGap gap rest) (position : Nat) :
    tokensFrom position (gap ++ rest) =
      tokensAfter position ⟨decide ('\n' ∈ gap), byteCount gap, rest⟩ := by
  rw [tokensFrom_eq, Gap.scan_of_longest h]

theorem tokensFrom_gap (h : LongestGap gap []) (position : Nat) : tokensFrom position (gap ++ []) = .ok [] :=
  tokensFrom_of_longestGap h position

theorem tokensFrom_error {flaw : Flaw} (h : LongestGap gap (c :: cs)) (hscan : Lexeme.scan c cs = .error flaw)
    (position : Nat) : tokensFrom position (gap ++ c :: cs) = .error ⟨position + byteCount gap, flaw⟩ := by
  rw [tokensFrom_of_longestGap h, tokensAfter]
  dsimp only
  rw [hscan]

theorem tokensFrom_ok {l : Lexeme} (h : LongestGap gap (c :: cs)) (hscan : Lexeme.scan c cs = .ok l)
    (position : Nat) :
    tokensFrom position (gap ++ c :: cs) =
      (tokensFrom (position + byteCount gap + l.size) l.rest).map
        (⟨l.content, position + byteCount gap, decide ('\n' ∈ gap)⟩ :: ·) := by
  rw [tokensFrom_of_longestGap h, tokensAfter]
  dsimp only
  rw [hscan]

/-! ### All tokens -/

/-- What is left after a longest gap begins no gap. -/
theorem LongestGap.after (h : LongestGap gap rest) : LongestGap [] rest := by
  obtain ⟨gap', hrest, hlongest, -⟩ := Gap.exists_longestGap rest
  have hscan := Gap.rest_scan_append h.isGap
  rw [Gap.scan_of_longest h] at hscan
  dsimp only at hscan
  rw [← hscan] at hrest hlongest
  rw [List.append_left_eq_self.mp hrest.symm] at hlongest
  exact hlongest

theorem Splits.stuck_gap (h : Splits rest before text ts) : LongestGap [] rest := by
  induction h with
  | gap hgap => exact hgap.after
  | lexeme _ _ _ ih => exact ih

/-- What a split leaves decides what tokenizing answers. -/
theorem tokensFrom_of_splits (h : Splits rest before text ts) :
    (rest = [] → tokensFrom (byteCount before) text = .ok ts) ∧
    ∀ c cs flaw, rest = c :: cs → Lexeme.scan c cs = .error flaw →
      ∃ read, text = read ++ rest ∧ tokensFrom (byteCount before) text = .error ⟨byteCount (before ++ read), flaw⟩ := by
  induction h with
  | @gap before gap hgap =>
    refine ⟨?_, ?_⟩
    · rintro rfl
      exact tokensFrom_gap hgap _
    · rintro c cs flaw rfl hscan
      refine ⟨gap, rfl, ?_⟩
      rw [tokensFrom_error hgap hscan, byteCount_append]
  | @lexeme before gap lexeme text content ts hgap hlexeme _ ih =>
    have hne : lexeme ++ text ≠ [] := List.append_ne_nil_of_left_ne_nil hlexeme.isLexeme.ne_nil _
    obtain ⟨c, cs, hcs⟩ := List.exists_cons_of_ne_nil hne
    have hscan := Lexeme.scan_of_longest hlexeme hcs
    rw [hcs] at hgap ⊢
    have hstep := tokensFrom_ok hgap hscan (byteCount before)
    dsimp only at hstep
    rw [← byteCount_append, ← byteCount_append] at hstep
    refine ⟨fun hrest => ?_, fun c' cs' flaw hrest hscan' => ?_⟩
    · rw [hstep, ih.1 hrest]
      rfl
    · obtain ⟨read, hread, herror⟩ := ih.2 c' cs' flaw hrest hscan'
      refine ⟨gap ++ lexeme ++ read, ?_, ?_⟩
      · rw [← hcs, hread]
        simp
      · rw [hstep, herror]
        simp [Except.map]

/-- Every text can be split up to its end or to a character where scanning gives up. -/
theorem exists_splits (before text : List Char) :
    ∃ rest ts, Splits rest before text ts ∧
      (rest = [] ∨ ∃ c cs flaw, rest = c :: cs ∧ Lexeme.scan c cs = .error flaw) := by
  obtain ⟨gap, hgap, hlongest, -⟩ := Gap.exists_longestGap text
  cases hrest : (Gap.scan false text).rest with
  | nil =>
    rw [hrest] at hgap hlongest
    rw [hgap]
    exact ⟨[], [], .gap hlongest, .inl rfl⟩
  | cons c cs =>
    rw [hrest] at hgap hlongest
    cases hscan : Lexeme.scan c cs with
    | error flaw =>
      rw [hgap]
      exact ⟨c :: cs, [], .gap hlongest, .inr ⟨c, cs, flaw, rfl, hscan⟩⟩
    | ok l =>
      obtain ⟨lexeme, hcs, hlexeme, -⟩ := Lexeme.exists_longestLexeme hscan
      have hshorter : l.rest.length < text.length := by
        have := Lexeme.scan_length_lt hscan
        rw [hgap, List.length_append]
        omega
      obtain ⟨rest, ts, hsplits, hend⟩ := exists_splits (before ++ gap ++ lexeme) l.rest
      rw [hcs] at hgap hlongest
      rw [hgap]
      exact ⟨rest, _, .lexeme hlongest hlexeme hsplits, hend⟩
termination_by text.length

variable {source : String} {d : Defect}

theorem tokenize_eq_ok_iff : tokenize source = .ok ts ↔ Splits [] [] source.toList ts := by
  refine ⟨fun h => ?_, fun h => (tokensFrom_of_splits h).1 rfl⟩
  obtain ⟨rest, ts', hsplits, rfl | ⟨c, cs, flaw, rfl, hscan⟩⟩ := exists_splits [] source.toList
  · have hok := (tokensFrom_of_splits hsplits).1 rfl
    cases h.symm.trans hok
    exact hsplits
  · obtain ⟨read, -, hfail⟩ := (tokensFrom_of_splits hsplits).2 c cs flaw rfl hscan
    cases h.symm.trans hfail

theorem tokenize_eq_error_iff :
    tokenize source = .error d ↔
      ∃ read c cs ts, source.toList = read ++ c :: cs ∧ Splits (c :: cs) [] source.toList ts ∧ Stuck c cs ∧
        d = ⟨byteCount read, refusal c⟩ := by
  constructor
  · intro h
    obtain ⟨rest, ts, hsplits, rfl | ⟨c, cs, flaw, rfl, hscan⟩⟩ := exists_splits [] source.toList
    · have hok := (tokensFrom_of_splits hsplits).1 rfl
      cases h.symm.trans hok
    · obtain ⟨read, hread, hfail⟩ := (tokensFrom_of_splits hsplits).2 c cs flaw rfl hscan
      obtain ⟨hnone, rfl⟩ := Lexeme.scan_eq_error_iff.mp hscan
      cases h.symm.trans hfail
      exact ⟨read, c, cs, ts, hread, hsplits, ⟨hsplits.stuck_gap, hnone⟩, rfl⟩
  · rintro ⟨read, c, cs, ts, hread, hsplits, hstuck, rfl⟩
    have hscan := Lexeme.scan_eq_error_iff.mpr ⟨hstuck.lexeme, rfl⟩
    obtain ⟨read', hread', hfail⟩ := (tokensFrom_of_splits hsplits).2 c cs _ rfl hscan
    rw [List.append_cancel_right (hread.symm.trans hread')]
    exact hfail

/-- **Tokens.** Tokenizing succeeds exactly when a source is a gap and then lexemes, each
with a gap after it, all of them longest at their places; the tokens are those of the
lexemes, each at its byte offset and with the line feeds of the gap before it. Otherwise it
fails at the first place where neither begins, which is an opening quote or a character
that cannot be there. No number is ever refused. -/
theorem tokenize_exact (source : String) :
    (∀ ts, tokenize source = .ok ts ↔ Splits [] [] source.toList ts) ∧
    (∀ d, tokenize source = .error d ↔
      ∃ read c cs ts, source.toList = read ++ c :: cs ∧ Splits (c :: cs) [] source.toList ts ∧ Stuck c cs ∧
        d = ⟨byteCount read, if c = '"' ∨ c = '\'' then .unterminatedString else .unexpectedCharacter c⟩) ∧
    ∀ position text, tokenize source ≠ .error ⟨position, .invalidNumber text⟩ := by
  refine ⟨fun ts => tokenize_eq_ok_iff, fun d => tokenize_eq_error_iff, fun position text h => ?_⟩
  obtain ⟨read, c, cs, ts, -, -, -, heq⟩ := tokenize_eq_error_iff.mp h
  have hflaw := congrArg Defect.flaw heq
  unfold refusal at hflaw
  split at hflaw <;> cases hflaw

end PoolScaling.Expr
