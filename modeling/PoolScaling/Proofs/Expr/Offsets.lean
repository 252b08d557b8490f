import PoolScaling.Proofs.Expr.Layout
import PoolScaling.Proofs.Expr.Scanner

/-! Offsets.

Offsets are handed through from the scanner to the errors. A token stands where its lexeme
begins (`Splits.boundary`), each after the one before (`Splits.increasing`); the parser
reports the position of a token or the end of the source. So every defect of a source
shows where a character begins or the source ends (`offsets_valid`). -/
namespace PoolScaling.Expr
open Text

/-- Byte `i` of a source is not in the middle of a character. -/
def IsBoundary (source : String) (i : Nat) : Prop := (String.Pos.Raw.mk i).IsValid source

variable {source : String} {before text rest : List Char} {ts : List Token} {t : Token} {d : Defect}

theorem isBoundary_of_append (h : source.toList = before ++ rest) : IsBoundary source (byteCount before) :=
  isValid_byteCount h

theorem isBoundary_zero (source : String) : IsBoundary source 0 :=
  isBoundary_of_append (List.nil_append source.toList).symm

theorem isBoundary_stop (source : String) : IsBoundary source source.utf8ByteSize := by
  rw [utf8ByteSize_eq]
  exact isBoundary_of_append (List.append_nil source.toList).symm

/-! ### Tokens -/

theorem Splits.boundary (h : Splits rest before text ts) (hsource : source.toList = before ++ text) :
    ∀ t ∈ ts, IsBoundary source t.position := by
  induction h with
  | gap => exact fun t ht => nomatch ht
  | @lexeme before gap lexeme text content ts hgap hlexeme _ ih =>
    have hhere : source.toList = (before ++ gap) ++ (lexeme ++ text) := by rw [hsource, List.append_assoc]
    have hnext : source.toList = (before ++ gap ++ lexeme) ++ text := by
      rw [hhere, List.append_assoc (before ++ gap)]
    exact List.forall_mem_cons.mpr ⟨isBoundary_of_append hhere, ih hnext⟩

theorem Splits.le_position (h : Splits rest before text ts) : ∀ t ∈ ts, byteCount before ≤ t.position := by
  induction h with
  | gap => exact fun t ht => nomatch ht
  | @lexeme before gap lexeme text content ts hgap hlexeme _ ih =>
    refine List.forall_mem_cons.mpr ⟨?_, fun t ht => ?_⟩
    · rw [byteCount_append]
      exact Nat.le_add_right _ _
    · have hle := ih t ht
      rw [byteCount_append, byteCount_append] at hle
      omega

/-- A lexeme takes a byte at least. -/
theorem Splits.increasing (h : Splits rest before text ts) : (ts.map Token.position).Pairwise (· < ·) := by
  induction h with
  | gap => exact .nil
  | @lexeme before gap lexeme text content ts hgap hlexeme hrest ih =>
    rw [List.map_cons]
    refine .cons (fun position hposition => ?_) ih
    obtain ⟨t, ht, rfl⟩ := List.mem_map.mp hposition
    have hle := hrest.le_position t ht
    have hpos := byteCount_pos hlexeme.isLexeme.ne_nil
    rw [byteCount_append] at hle
    exact Nat.lt_of_lt_of_le (Nat.lt_add_of_pos_right hpos) hle

/-! ### Defects -/

theorem isBoundary_of_tokenize (h : tokenize source = .error d) : IsBoundary source d.position := by
  obtain ⟨read, c, cs, ts, hread, -, -, rfl⟩ := tokenize_eq_error_iff.mp h
  exact isBoundary_of_append hread

theorem isBoundary_of_parse (htokens : tokenize source = .ok ts) (h : parse ts source.utf8ByteSize = .error d) :
    IsBoundary source d.position := by
  obtain hstop | ⟨t, ht, hposition⟩ := position_of_parse h
  · rw [hstop]
    exact isBoundary_stop source
  · rw [hposition]
    exact (tokenize_eq_ok_iff.mp htokens).boundary rfl t ht

theorem isBoundary_of_compile (h : compile source = .error (.malformed d)) : IsBoundary source d.position := by
  unfold compile at h
  split at h
  · rename_i htokens
    cases h
    exact isBoundary_of_tokenize htokens
  · rename_i ts htokens
    split at h
    · rename_i hparse
      cases h
      exact isBoundary_of_parse htokens hparse
    · cases h
    · split at h
      · cases h
        exact isBoundary_zero source
      · cases h

/-- **Offsets.** Scanning a source by bytes never cuts a character, for then it would crash
and not find the tokens that the characters have. Positions of tokens increase, and a
source that is refused is refused at a boundary of characters, within the source. -/
theorem offsets_valid (source : String) :
    Scanner.scan source = (tokenize source).mapError .error ∧ Scanner.scan source ≠ .error .crash ∧
    (∀ ts, tokenize source = .ok ts → (ts.map Token.position).Pairwise (· < ·)) ∧
    ∀ d, compile source = .error (.malformed d) →
      IsBoundary source d.position ∧ d.position ≤ source.utf8ByteSize := by
  have hscan := Scanner.scan_eq source
  refine ⟨hscan, fun hcrash => ?_, fun ts h => (tokenize_eq_ok_iff.mp h).increasing, fun d h => ?_⟩
  · rw [hscan] at hcrash
    cases htokens : tokenize source with
    | ok ts =>
      rw [htokens] at hcrash
      cases hcrash
    | error d =>
      rw [htokens] at hcrash
      cases hcrash
  · have hboundary := isBoundary_of_compile h
    exact ⟨hboundary, hboundary.le_utf8ByteSize⟩

theorem offsets_of_unexpected :
    compile "'é' é" = .error (.malformed ⟨5, .unexpectedCharacter 'é'⟩) ∧
      IsBoundary "'é' é" 5 ∧ 5 ≤ "'é' é".utf8ByteSize := by
  have hsource : "'é' é".toList = ['\'', 'é', '\'', ' ', 'é'] := by decide
  have hlast : tokensFrom 4 [' ', 'é'] = .error ⟨5, .unexpectedCharacter 'é'⟩ := by
    rw [tokensFrom_eq]
    rfl
  have htokens : tokenize "'é' é" = .error ⟨5, .unexpectedCharacter 'é'⟩ := by
    rw [tokenize, hsource, tokensFrom_eq]
    show (tokensFrom 4 [' ', 'é']).map _ = _
    rw [hlast]
    rfl
  have hcompile : compile "'é' é" = .error (.malformed ⟨5, .unexpectedCharacter 'é'⟩) := by
    rw [compile, htokens]
  exact ⟨hcompile, (offsets_valid _).2.2.2 _ hcompile⟩

end PoolScaling.Expr
