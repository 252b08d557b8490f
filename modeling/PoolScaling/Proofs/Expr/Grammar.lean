import PoolScaling.Expr.Parser

/-! The grammar of the expression language.

`Spells` says which tokens spell which phrase, at a depth of nesting and inside
brackets or not. It is a grammar in the usual layered form: an operation of one
level is one of the next tighter level, or an operation of its own level, an
operator and an operation of the next. Its operators are collected into one run,
and only a right operand becomes a tree of its own. How deep forms nest and how many
operands a run has is limited by the grammar itself.

Outside brackets a token after a line break joins nothing that stands before it.
`Script` puts statements together, with semicolons or line breaks between them. -/
namespace PoolScaling.Expr

/-- The tree of a first operand and of the operators that are applied to it. -/
def Tree.ofRun (first : Tree) (rest : List (BinaryOp × Tree)) : Tree :=
  if rest.isEmpty then first else .run first rest

/-- The mark of an operator that stands before its operand. -/
def UnaryOp.mark : UnaryOp → Mark
  | negate => .minus
  | not => .bang

namespace Token

/-- Whether a token may continue what stands before it. -/
def joins (inside : Bool) (t : Token) : Prop := inside = true ∨ t.newlineBefore = false

def operator? (t : Token) : Option BinaryOp :=
  match t.content with
  | .mark m => BinaryOp.ofMark? m
  | _ => none

/-- The tree that a token spells by itself. -/
def atom? (t : Token) : Option Tree :=
  match t.content with
  | .number x => some (.number x)
  | .string s => some (.string s)
  | .name s => some (Parser.ofName s)
  | .mark _ => none

end Token

/-- What a sequence of tokens can spell. -/
inductive Phrase where
  /-- An expression as a part of another form. -/
  | expression (t : Tree)
  /-- An expression at its own depth. -/
  | body (t : Tree)
  /-- A run of operators of a level and tighter. -/
  | operation (level : Nat) (first : Tree) (rest : List (BinaryOp × Tree))
  | unary (t : Tree)
  /-- A primary with a number of members, indexes and calls. -/
  | postfixed (count : Nat) (t : Tree)
  | primary (t : Tree)
  | items (ts : List Tree)
  | field (f : String × Tree)
  | fields (fs : List (String × Tree))

/-- Tokens that spell a phrase. The number counts the forms around the phrase, and the
truth value tells whether it stands inside brackets. -/
inductive Spells : Nat → Bool → Phrase → List Token → Prop
  | expression {n i t ts} : n < maxNesting → Spells (n + 1) i (.body t) ts →
      Spells n i (.expression t) ts
  | plain {n i f r ts} : Spells n i (.operation 0 f r) ts → Spells n i (.body (.ofRun f r)) ts
  | conditional {n i f r yes no ts us vs} {q c : Token} :
      Spells n i (.operation 0 f r) ts → q.content = .mark .question → q.joins i →
      Spells n i (.expression yes) us → c.content = .mark .colon →
      Spells n i (.expression no) vs →
      Spells n i (.body (.conditional (.ofRun f r) yes no)) (ts ++ q :: (us ++ c :: vs))
  | operand {n i t ts} : Spells n i (.unary t) ts → Spells n i (.operation BinaryOp.levels t []) ts
  | looser {n i l f r ts} : l < BinaryOp.levels → Spells n i (.operation (l + 1) f r) ts →
      Spells n i (.operation l f r) ts
  | apply {n i f r f' r' ts us} {t : Token} {op : BinaryOp} :
      Spells n i (.operation op.level f r) ts → t.operator? = some op → t.joins i →
      Spells n i (.operation (op.level + 1) f' r') us → r.length + 1 < maxOperands →
      Spells n i (.operation op.level f (r ++ [(op, .ofRun f' r')])) (ts ++ t :: us)
  | sign {n i op t ts} {m : Token} : m.content = .mark op.mark → n < maxNesting →
      Spells (n + 1) i (.unary t) ts → Spells n i (.unary (.unary op t)) (m :: ts)
  | bare {n i k t ts} : Spells n i (.postfixed k t) ts → Spells n i (.unary t) ts
  | primary {n i t ts} : Spells n i (.primary t) ts → Spells n i (.postfixed 0 t) ts
  | member {n i k t f ts} {d m : Token} : Spells n i (.postfixed k t) ts → n + k < maxNesting →
      d.content = .mark .dot → d.joins i → m.content = .name f →
      Spells n i (.postfixed (k + 1) (.member t f)) (ts ++ [d, m])
  | index {n i k t x ts us} {o c : Token} : Spells n i (.postfixed k t) ts → n + k < maxNesting →
      o.content = .mark .leftBracket → o.joins i →
      Spells (n + k + 1) true (.expression x) us → c.content = .mark .rightBracket →
      Spells n i (.postfixed (k + 1) (.index t x)) (ts ++ o :: (us ++ [c]))
  | call {n i k t as ts us} {o c : Token} : Spells n i (.postfixed k t) ts → n + k < maxNesting →
      o.content = .mark .leftParen → o.joins i →
      Spells (n + k + 1) true (.items as) us → c.content = .mark .rightParen →
      Spells n i (.postfixed (k + 1) (.call t as)) (ts ++ o :: (us ++ [c]))
  | atom {n i e} {t : Token} : t.atom? = some e → Spells n i (.primary e) [t]
  | paren {n i t ts} {o c : Token} : o.content = .mark .leftParen →
      Spells n true (.expression t) ts → c.content = .mark .rightParen →
      Spells n i (.primary t) (o :: (ts ++ [c]))
  | array {n i as ts} {o c : Token} : o.content = .mark .leftBracket →
      Spells n true (.items as) ts → c.content = .mark .rightBracket →
      Spells n i (.primary (.array as)) (o :: (ts ++ [c]))
  | record {n i fs ts} {o c : Token} : o.content = .mark .leftBrace →
      Spells n true (.fields fs) ts → c.content = .mark .rightBrace →
      Spells n i (.primary (.record fs)) (o :: (ts ++ [c]))
  | noItems {n i} : Spells n i (.items []) []
  | lastItem {n i t ts} : Spells n i (.expression t) ts → Spells n i (.items [t]) ts
  | moreItems {n i t as ts us} {c : Token} : Spells n i (.expression t) ts → c.content = .mark .comma →
      Spells n i (.items as) us → Spells n i (.items (t :: as)) (ts ++ c :: us)
  | field {n i key t ts} {k c : Token} : k.content = .name key ∨ k.content = .string key →
      c.content = .mark .colon → Spells n i (.expression t) ts →
      Spells n i (.field (key, t)) (k :: c :: ts)
  | noFields {n i} : Spells n i (.fields []) []
  | lastField {n i f ts} : Spells n i (.field f) ts → Spells n i (.fields [f]) ts
  | moreFields {n i f fs ts us} {c : Token} : Spells n i (.field f) ts → c.content = .mark .comma →
      Spells n i (.fields fs) us → Spells n i (.fields (f :: fs)) (ts ++ c :: us)

theorem BinaryOp.level_lt_levels (op : BinaryOp) : op.level < BinaryOp.levels := by
  cases op with
  | arithmetic op => cases op <;> decide
  | either | both | equal | unequal => decide

/-- An operation of tight operators is one of looser ones too. -/
theorem Spells.loosen {n l l' : Nat} {i : Bool} {f : Tree} {r : List (BinaryOp × Tree)} {ts : List Token}
    (h : Spells n i (.operation l f r) ts) (hl : l ≤ BinaryOp.levels) (hle : l' ≤ l) :
    Spells n i (.operation l' f r) ts := by
  obtain ⟨d, rfl⟩ := Nat.exists_eq_add_of_le hle
  induction d with
  | zero => exact h
  | succ d ih => exact ih (.looser (by omega) h) (by omega) (by omega)

namespace Phrase

/-- Whether a phrase may have no tokens. -/
def isList : Phrase → Bool
  | items _ | fields _ => true
  | _ => false

/-- The marks that a phrase may begin with. -/
def openers : Phrase → List Mark
  | postfixed _ _ | primary _ => [.leftParen, .leftBracket, .leftBrace]
  | _ => [.minus, .bang, .leftParen, .leftBracket, .leftBrace]

/-- A number of tokens that a phrase has at least. -/
def count : Phrase → Nat
  | items as => as.length
  | fields fs => fs.length
  | _ => 1

end Phrase

namespace Spells

variable {n : Nat} {i : Bool} {phrase : Phrase} {ts : List Token}

/-- All phrases but lists have a first token, which is not any mark. -/
theorem head (h : Spells n i phrase ts) (hphrase : phrase.isList = false) :
    ∃ t us, ts = t :: us ∧ ∀ m, t.content = .mark m → m ∈ phrase.openers := by
  induction h with
  | expression _ _ ih | plain _ ih | operand _ ih | looser _ _ ih | primary _ ih => exact ih rfl
  | conditional _ _ _ _ _ _ ih | apply _ _ _ _ _ ih | member _ _ _ _ _ ih | index _ _ _ _ _ _ ih
    | call _ _ _ _ _ _ ih =>
    obtain ⟨t, us, rfl, ht⟩ := ih rfl
    exact ⟨t, _, rfl, ht⟩
  | bare _ ih =>
    obtain ⟨t, us, rfl, ht⟩ := ih rfl
    exact ⟨t, us, rfl, fun m hm => List.mem_cons_of_mem _ (List.mem_cons_of_mem _ (ht m hm))⟩
  | @sign _ _ op _ _ _ ht =>
    refine ⟨_, _, rfl, fun m hm => ?_⟩
    cases ht.symm.trans hm
    cases op <;> simp [Phrase.openers, UnaryOp.mark]
  | paren ht | array ht | record ht =>
    refine ⟨_, _, rfl, fun m hm => ?_⟩
    cases ht.symm.trans hm
    simp [Phrase.openers]
  | atom ht =>
    refine ⟨_, _, rfl, fun m hm => ?_⟩
    rw [Token.atom?, hm] at ht
    cases ht
  | field hk =>
    refine ⟨_, _, rfl, fun m hm => ?_⟩
    rcases hk with hk | hk <;> cases hk.symm.trans hm
  | noItems | lastItem | moreItems | noFields | lastField | moreFields => cases hphrase

theorem count_le (h : Spells n i phrase ts) : phrase.count ≤ ts.length := by
  induction h with
  | expression _ _ ih | plain _ ih | operand _ ih | looser _ _ ih | primary _ ih | bare _ ih => exact ih
  | noItems | noFields => exact Nat.le_refl 0
  | lastItem _ ih | lastField _ ih => exact ih
  | moreItems _ _ _ ih ih' | moreFields _ _ _ ih ih' =>
    simp only [Phrase.count, List.length_cons, List.length_append] at ih ih' ⊢
    omega
  | _ =>
    simp only [Phrase.count, List.length_cons, List.length_append]
    omega

/-- Postfix forms stay within the greatest depth. -/
theorem depth_le {c : Nat} {t : Tree} (h : Spells n i (.postfixed c t) ts) (hn : n ≤ maxNesting) :
    n + c ≤ maxNesting := by
  cases h with
  | primary => exact hn
  | member _ hlt | index _ hlt | call _ hlt => exact hlt

end Spells

/-! ### Statements -/

/-- The words that a definition begins with. -/
def definers : List String := ["let", "const", "var"]

/-- The words that begin a statement other than an expression. -/
def leadingWords : List String := "return" :: definers

/-- Tokens that spell a statement. -/
inductive Sentence : Statement → List Token → Prop
  | define {w x t ts} {word name assign : Token} : word.content = .name w → w ∈ definers →
      name.content = .name x → assign.content = .mark .assign → Spells 0 false (.expression t) ts →
      Sentence (.define x t) (word :: name :: assign :: ts)
  | answer {t ts} {word : Token} : word.content = .name "return" → Spells 0 false (.expression t) ts →
      Sentence (.answer t) (word :: ts)
  | yield {t ts} : Spells 0 false (.expression t) ts →
      (∀ first ∈ ts.head?, ∀ w, first.content = .name w → w ∉ leadingWords) → Sentence (.yield t) ts

/-- Tokens that spell a sequence of statements: semicolons before, between and after
them, and a line break where there is none. -/
inductive Script : List Statement → List Token → Prop
  | done {seps} : (∀ t ∈ seps, Parser.isSeparator t = true) → Script [] seps
  | cons {s rest seps ts us} : (∀ t ∈ seps, Parser.isSeparator t = true) → Sentence s ts →
      (∀ t ∈ us.head?, Parser.isSeparator t = true ∨ t.newlineBefore = true) → Script rest us →
      Script (s :: rest) (seps ++ ts ++ us)

/-- A statement has a first token, and it is no semicolon. -/
theorem Sentence.head {s : Statement} {ts : List Token} (h : Sentence s ts) :
    ∃ t us, ts = t :: us ∧ Parser.isSeparator t = false := by
  cases h with
  | define hword | answer hword =>
    refine ⟨_, _, rfl, ?_⟩
    rw [Parser.isSeparator, hword]
  | yield hexpression =>
    obtain ⟨t, us, rfl, ht⟩ := hexpression.head rfl
    refine ⟨t, us, rfl, ?_⟩
    unfold Parser.isSeparator
    split
    · rename_i hsemicolon
      have hopener := ht _ hsemicolon
      simp [Phrase.openers] at hopener
    · rfl

end PoolScaling.Expr
