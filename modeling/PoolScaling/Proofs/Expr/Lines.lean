import PoolScaling.Proofs.Expr.Completeness
import PoolScaling.Proofs.Expr.Height
import PoolScaling.Proofs.Expr.Layout
import PoolScaling.Proofs.Expr.Scanner

/-! Scripts one after another.

A line feed stands in no lexeme but a string, and ends a comment. So it ends whatever stands
before it: the tokens of two sources with a line feed between them are those of the first
source and, from the line feed on, those of the second (`tokenize_line`). These only stand
further on, and the first of them after a line break, which matters to nothing but what would
have to join it from before. Two scripts therefore make one (`compile_line`). -/
namespace PoolScaling.Expr
open Number Text

/-! ### Gaps -/

namespace Gap

/-- What becomes of a gap when a line feed and `ds` follow the text. Only a gap that takes
the whole text goes on behind the line feed. -/
def line (g : Gap) (ds : List Char) : Gap :=
  match g.rest with
  | [] => ⟨true, g.size + 1 + (scan false ds).size, (scan false ds).rest⟩
  | c :: cs => ⟨g.newline, g.size, c :: (cs ++ '\n' :: ds)⟩

theorem line_of_nil {g : Gap} (h : g.rest = []) (ds : List Char) :
    g.line ds = ⟨true, g.size + 1 + (scan false ds).size, (scan false ds).rest⟩ := by
  rw [line, h]

theorem line_of_cons {g : Gap} {c : Char} {cs : List Char} (h : g.rest = c :: cs) (ds : List Char) :
    g.line ds = ⟨g.newline, g.size, c :: (cs ++ '\n' :: ds)⟩ := by
  rw [line, h]

/-- A gap that grows by a character in front grows by it with the line feed too. -/
theorem line_grow (g : Gap) (newline : Bool) (size : Nat) (ds : List Char) :
    Gap.line ⟨newline || g.newline, g.size + size, g.rest⟩ ds =
      ⟨newline || (g.line ds).newline, (g.line ds).size + size, (g.line ds).rest⟩ := by
  obtain ⟨newline', size', rest⟩ := g
  cases rest with
  | nil =>
    simp only [line, Bool.or_true, Gap.mk.injEq, and_true, true_and]
    omega
  | cons c cs => rfl

theorem scan_line (comment : Bool) (cs ds : List Char) :
    scan comment (cs ++ '\n' :: ds) = (scan comment cs).line ds := by
  induction cs generalizing comment with
  | nil =>
    simp only [List.nil_append, scan, line, if_pos, Gap.mk.injEq, and_true, true_and]
    omega
  | cons c cs ih =>
    have hnext : decide ((cs ++ '\n' :: ds).head? = some '/') = decide (cs.head? = some '/') := by
      cases cs <;> rfl
    simp only [List.cons_append, scan, ih, hnext]
    split
    · exact (line_grow (scan false cs) true 1 ds).symm
    · split
      · exact (line_grow (scan true cs) false c.utf8Size ds).symm
      · split
        · exact (line_grow (scan false cs) false 1 ds).symm
        · split
          · exact (line_grow (scan true cs) false 1 ds).symm
          · rfl

end Gap

/-! ### Lexemes -/

/-- A lexeme with a line feed in it is a string. -/
theorem IsLexeme.quoted_of_newline {content : Content} {lexeme : List Char} (h : IsLexeme content lexeme)
    (hnewline : '\n' ∈ lexeme) :
    ∃ quote body value, (quote = '"' ∨ quote = '\'') ∧ Quoted quote body value ∧
      lexeme = quote :: (body ++ [quote]) := by
  cases h with
  | number hd => exact absurd (Decimal.isNumeric_of_written hd hnewline) (by decide)
  | string hquote h => exact ⟨_, _, _, hquote, h, rfl⟩
  | name hc hcs =>
    rcases List.mem_cons.mp hnewline with rfl | hmem
    · exact absurd hc (by decide)
    · exact absurd (hcs _ hmem) (by decide)
  | mark hspelling =>
    have hnone : ∀ s ∈ Mark.spellings, '\n' ∉ s.1 := by decide
    exact absurd hnewline (hnone _ hspelling)

/-- What a text begins with before its line feed, it begins with before all that follows. -/
theorem prefix_of_newline_not_mem {lexeme cs ds : List Char} (h : lexeme <+: cs ++ '\n' :: ds)
    (hnewline : '\n' ∉ lexeme) : lexeme <+: cs := by
  rcases List.prefix_or_prefix_of_prefix h (List.prefix_append cs _) with hprefix | ⟨more, rfl⟩
  · exact hprefix
  · cases more with
    | nil => exact (List.append_nil cs).symm ▸ List.prefix_rfl
    | cons c more =>
      rw [List.prefix_append_right_inj, List.cons_prefix_cons] at h
      rw [h.1] at hnewline
      exact absurd (List.mem_append_right _ List.mem_cons_self) hnewline

namespace Lexeme

variable {c : Char} {cs : List Char} {l : Lexeme}

/-- A string ends at its closing quote, whatever follows. -/
theorem rest_of_quoted {quote : Char} {body value ds rest : List Char} (hquote : quote = '"' ∨ quote = '\'')
    (hbody : Quoted quote body value) (h : scan c cs = .ok l)
    (heq : quote :: (body ++ quote :: rest) = c :: (cs ++ ds)) : rest = l.rest ++ ds := by
  have hne : quote ≠ '\\' := by obtain rfl | rfl := hquote <;> decide
  rw [List.cons.injEq] at heq
  obtain ⟨rfl, hcs⟩ := heq
  rw [scan_string hquote] at h
  split at h
  · rename_i hscan
    cases h
    obtain ⟨body', rfl, hbody'⟩ := exists_of_scanString hscan
    have hfirst := scanString_of_quoted hne hbody rest
    rw [hcs, List.append_assoc, List.cons_append, scanString_of_quoted hne hbody'] at hfirst
    exact (Prod.mk.inj (Prod.mk.inj (Option.some.inj hfirst)).2).2.symm
  · cases h

/-- A line feed behind the text does not make its first lexeme longer. -/
theorem scan_line (h : scan c cs = .ok l) (ds : List Char) :
    scan c (cs ++ '\n' :: ds) = .ok ⟨l.content, l.size, l.rest ++ '\n' :: ds⟩ := by
  obtain ⟨lexeme, hcs, hlongest, hsize⟩ := exists_longestLexeme h
  have heq : lexeme ++ (l.rest ++ '\n' :: ds) = c :: (cs ++ '\n' :: ds) := by
    rw [← List.append_assoc, ← hcs, List.cons_append]
  have hlongest' : LongestLexeme l.content lexeme (l.rest ++ '\n' :: ds) := by
    refine ⟨hlongest.isLexeme, fun content' lexeme' hprefix hlexeme' => ?_⟩
    by_cases hnewline : '\n' ∈ lexeme'
    · obtain ⟨quote, body, value, hquote, hbody, rfl⟩ := hlexeme'.quoted_of_newline hnewline
      obtain ⟨rest, hrest⟩ := hprefix
      have hwhole : quote :: (body ++ quote :: rest) = c :: (cs ++ '\n' :: ds) := by
        rw [← heq, ← hrest, List.cons_append, List.append_assoc, List.singleton_append]
      rw [rest_of_quoted hquote hbody h hwhole] at hrest
      exact (congrArg List.length (List.append_cancel_right hrest)).le
    · rw [← List.append_assoc, ← hcs] at hprefix
      have hshort := prefix_of_newline_not_mem hprefix hnewline
      rw [hcs] at hshort
      exact hlongest.longest _ _ hshort hlexeme'
  rw [scan_of_longest hlongest' heq, hsize]

end Lexeme

/-! ### Tokens -/

/-- The tokens of a text stay when a line feed and more follow it, and the line feed begins
what comes after them. -/
theorem tokensFrom_line {before text : List Char} {ts : List Token} (h : Splits [] before text ts)
    (ds : List Char) :
    tokensFrom (byteCount before) (text ++ '\n' :: ds) =
      (tokensFrom (byteCount (before ++ text)) ('\n' :: ds)).map (ts ++ ·) := by
  induction h with
  | @gap before gap hgap =>
    have hid : Scanner.broken false = ([] ++ ·) := funext Scanner.broken_false
    rw [tokensFrom_eq, Gap.scan_line, Gap.scan_of_longest hgap, Gap.line_of_nil rfl, List.append_nil,
      byteCount_append, tokensFrom_eq, ← hid, ← Scanner.tokensAfter_part]
    dsimp only
    rw [Nat.add_assoc, Nat.add_comm 1]
    rfl
  | @lexeme before gap lexeme text content ts hgap hlexeme _ ih =>
    have hne : lexeme ++ text ≠ [] := List.append_ne_nil_of_left_ne_nil hlexeme.isLexeme.ne_nil _
    obtain ⟨c, cs, hcs⟩ := List.exists_cons_of_ne_nil hne
    have hscan := Lexeme.scan_line (Lexeme.scan_of_longest hlexeme hcs) ds
    rw [tokensFrom_eq, Gap.scan_line, Gap.scan_of_longest hgap, Gap.line_of_cons hcs, tokensAfter]
    dsimp only
    rw [hscan]
    dsimp only
    rw [← byteCount_append, ← byteCount_append, ih, ← List.append_assoc, ← List.append_assoc]
    cases tokensFrom (byteCount (before ++ gap ++ lexeme ++ text)) ('\n' :: ds) <;> rfl

/-- The token, `k` bytes further on. -/
def Token.further (k : Nat) (t : Token) : Token := { t with position := k + t.position }

/-- More text in front moves the tokens. -/
theorem Splits.further {rest before text : List Char} {ts : List Token} (h : Splits rest before text ts)
    (more : List Char) : Splits rest (more ++ before) text (ts.map (Token.further (byteCount more))) := by
  induction h with
  | gap hgap => exact .gap hgap
  | @lexeme before gap lexeme text content ts hgap hlexeme _ ih =>
    have hlater : Splits rest (more ++ before ++ gap ++ lexeme) text (ts.map (Token.further (byteCount more))) := by
      simpa only [List.append_assoc] using ih
    have hsplits := Splits.lexeme hgap hlexeme hlater
    rw [List.append_assoc, byteCount_append] at hsplits
    exact hsplits

open Scanner (broken tokensFrom_newline)

/-- **Lines.** With a line feed between them, two sources have the tokens of the first and
then those of the second, which stand further on and after a line break. -/
theorem tokenize_line {source source' : String} {ts us : List Token} (h : tokenize source = .ok ts)
    (h' : tokenize source' = .ok us) :
    tokenize (source ++ "\n" ++ source') =
      .ok (ts ++ broken true (us.map (Token.further (source ++ "\n").utf8ByteSize))) := by
  have htext : (source ++ "\n").toList = source.toList ++ ['\n'] := String.toList_append
  have hbefore := tokensFrom_line (tokenize_eq_ok_iff.mp h) source'.toList
  have hafter := (tokensFrom_of_splits ((tokenize_eq_ok_iff.mp h').further (source ++ "\n").toList)).1 rfl
  have hone : byteCount (source ++ "\n").toList = byteCount source.toList + 1 := by
    rw [htext, byteCount_append]
    rfl
  rw [List.append_nil, ← utf8ByteSize_eq] at hafter
  rw [tokensFrom_newline, List.nil_append, ← hone, ← utf8ByteSize_eq, hafter] at hbefore
  rw [tokenize, String.toList_append, htext, List.append_assoc, List.singleton_append]
  exact hbefore

/-! ### Grammar -/

namespace Spells

variable {n : Nat} {i : Bool} {phrase : Phrase} {ts : List Token}

theorem ne_nil (h : Spells n i phrase ts) (hphrase : phrase.isList = false) : ts ≠ [] := by
  obtain ⟨t, us, rfl, -⟩ := h.head hphrase
  exact List.cons_ne_nil _ _

/-- A line break before a phrase is none inside it. -/
theorem broken (h : Spells n i phrase ts) : Spells n i phrase (broken true ts) := by
  induction h with
  | expression hn _ ih => exact .expression hn ih
  | plain _ ih => exact .plain ih
  | conditional h hq hjoins hyes hc hno ih =>
    rw [Scanner.broken_append (h.ne_nil rfl)]
    exact .conditional ih hq hjoins hyes hc hno
  | operand _ ih => exact .operand ih
  | looser hl _ ih => exact .looser hl ih
  | apply h ht hjoins hright hlt ih =>
    rw [Scanner.broken_append (h.ne_nil rfl)]
    exact .apply ih ht hjoins hright hlt
  | sign hm hn h => exact .sign hm hn h
  | bare _ ih => exact .bare ih
  | primary _ ih => exact .primary ih
  | member h hn hd hjoins hm ih =>
    rw [Scanner.broken_append (h.ne_nil rfl)]
    exact .member ih hn hd hjoins hm
  | index h hn ho hjoins hx hc ih =>
    rw [Scanner.broken_append (h.ne_nil rfl)]
    exact .index ih hn ho hjoins hx hc
  | call h hn ho hjoins has hc ih =>
    rw [Scanner.broken_append (h.ne_nil rfl)]
    exact .call ih hn ho hjoins has hc
  | atom ht => exact .atom ht
  | paren ho h hc => exact .paren ho h hc
  | array ho h hc => exact .array ho h hc
  | record ho h hc => exact .record ho h hc
  | noItems => exact .noItems
  | lastItem _ ih => exact .lastItem ih
  | moreItems h hc has ih =>
    rw [Scanner.broken_append (h.ne_nil rfl)]
    exact .moreItems ih hc has
  | field hk hc h => exact .field hk hc h
  | noFields => exact .noFields
  | lastField _ ih => exact .lastField ih
  | moreFields h hc hfs ih =>
    rw [Scanner.broken_append (h.ne_nil rfl)]
    exact .moreFields ih hc hfs

end Spells

theorem Sentence.broken {a : Statement} {ts : List Token} (h : Sentence a ts) :
    Sentence a (Scanner.broken true ts) := by
  cases h with
  | define hword hdefiner hname hassign ht => exact .define hword hdefiner hname hassign ht
  | answer hword ht => exact .answer hword ht
  | yield ht hfirst =>
    refine .yield ht.broken fun first hmem => ?_
    obtain ⟨t, us, rfl, -⟩ := ht.head rfl
    cases hmem
    exact hfirst t rfl

namespace Script

variable {as bs : List Statement} {seps ts us : List Token}

theorem separated (hseps : ∀ t ∈ seps, Parser.isSeparator t = true) (h : Script as ts) :
    Script as (seps ++ ts) := by
  cases h with
  | done hmore => exact .done (List.forall_mem_append.mpr ⟨hseps, hmore⟩)
  | cons hmore hsentence hparted hrest =>
    rw [← List.append_assoc, ← List.append_assoc]
    exact .cons (List.forall_mem_append.mpr ⟨hseps, hmore⟩) hsentence hparted hrest

theorem isSeparator_broken (hseps : ∀ t ∈ seps, Parser.isSeparator t = true) :
    ∀ t ∈ Scanner.broken true seps, Parser.isSeparator t = true := by
  cases seps with
  | nil => exact hseps
  | cons t seps => exact List.forall_mem_cons.mpr (List.forall_mem_cons.mp hseps)

theorem broken (h : Script as ts) : Script as (Scanner.broken true ts) := by
  cases h with
  | done hseps => exact .done (isSeparator_broken hseps)
  | @cons a as seps ts us hseps hsentence hparted hrest =>
    obtain ⟨first, more, hts, -⟩ := hsentence.head
    have hne : ts ≠ [] := hts ▸ List.cons_ne_nil _ _
    cases seps with
    | nil =>
      rw [List.nil_append, Scanner.broken_append hne]
      exact .cons hseps hsentence.broken hparted hrest
    | cons t seps =>
      rw [List.append_assoc, Scanner.broken_append (List.cons_ne_nil _ _), ← List.append_assoc]
      exact .cons (isSeparator_broken hseps) hsentence hparted hrest

/-- Scripts one after another, parted as statements are. -/
theorem append (h : Script as ts) (h' : Script bs us)
    (hparted : ∀ t ∈ us.head?, Parser.isSeparator t = true ∨ t.newlineBefore = true) :
    Script (as ++ bs) (ts ++ us) := by
  induction h with
  | done hseps => exact h'.separated hseps
  | @cons a as seps ts vs hseps hsentence hends _ ih =>
    rw [List.append_assoc]
    refine .cons hseps hsentence (fun t ht => ?_) ih
    cases vs with
    | nil => exact hparted t ht
    | cons v vs => exact hends t ht

end Script

/-! ### Programs -/

theorem resembles_further (k : Nat) (n : Int) (ts : List Token) :
    Resembles (k + ·) n ts (ts.map (Token.further k)) := by
  induction ts generalizing n with
  | nil => exact .nil
  | cons t ts ih => exact .cons rfl rfl (fun _ => rfl) (ih _)

/-- What tokens spell they spell anywhere. -/
theorem script_further {as : List Statement} {ts : List Token} {stop : Nat} (h : parse ts stop = .ok as) (k : Nat) :
    Script as (ts.map (Token.further k)) := by
  have hmoved := Parser.parse_resembling (resembles_further k 0 ts) stop
  rw [h] at hmoved
  exact Parser.script_of_parse hmoved

/-- **Lines compose.** Two sources that compile make one with a line feed between them, and
its statements are those of the first and then those of the second. -/
theorem compile_line {source source' : String} {p q : Program} (hp : compile source = .ok p)
    (hq : compile source' = .ok q) :
    compile (source ++ "\n" ++ source') = .ok ⟨p.statements ++ q.statements⟩ := by
  obtain ⟨ts, htokens, hparse, hne, hbounded⟩ := compile_eq_ok_iff.mp hp
  obtain ⟨us, htokens', hparse', -, hbounded'⟩ := compile_eq_ok_iff.mp hq
  have hsecond := (script_further hparse' (source ++ "\n").utf8ByteSize).broken
  have hscript := (Parser.script_of_parse hparse).append hsecond fun t ht =>
    .inr (Scanner.newlineBefore_of_head_broken t ht)
  refine compile_eq_ok_iff.mpr ⟨_, tokenize_line htokens htokens', Parser.parse_of_script hscript _, ?_, ?_⟩
  · exact List.append_ne_nil_of_left_ne_nil hne _
  · exact List.forall_mem_append.mpr ⟨hbounded, hbounded'⟩

/-- A comment ends at the line feed, and a minus after it begins another statement. -/
theorem compile_line_comment_minus :
    ∃ p q, compile "a // one" = .ok p ∧ compile "-b" = .ok q ∧ p.statements.length = 1 ∧ q.statements.length = 1 ∧
      compile "a // one\n-b" = .ok ⟨p.statements ++ q.statements⟩ := by
  have hfirst : (compile "a // one").toOption.map (fun p => p.statements.length) = some 1 := by decide +kernel
  have hsecond : (compile "-b").toOption.map (fun q => q.statements.length) = some 1 := by decide +kernel
  obtain ⟨p, hp, hone⟩ := Option.map_eq_some_iff.mp hfirst
  obtain ⟨q, hq, hone'⟩ := Option.map_eq_some_iff.mp hsecond
  have hp := Change.eq_ok_of_toOption hp
  have hq := Change.eq_ok_of_toOption hq
  exact ⟨p, q, hp, hq, hone, hone', compile_line hp hq⟩

end PoolScaling.Expr
