import PoolScaling.Proofs.Change
import PoolScaling.Proofs.Expr.Grammar

/-! Cursors and single tokens.

A parser that takes tokens leaves the cursor behind them, and all else as it was:
it goes from `s.before ts` to `s`. Each of the smallest parsers is described by one
equivalence, which serves both when a parser is known to have answered and when it
has to be shown that it does. -/
namespace PoolScaling.Expr

theorem Token.mark_of_operator? {t : Token} {op : BinaryOp} (h : t.operator? = some op) :
    ∃ m, t.content = .mark m ∧ BinaryOp.ofMark? m = some op := by
  unfold operator? at h
  split at h
  · exact ⟨_, ‹_›, h⟩
  · cases h

namespace Cursor

/-- The cursor with more tokens in front. -/
def before (s : Cursor) (ts : List Token) : Cursor := { s with rest := ts ++ s.rest }

/-- Whether the current place is inside brackets. -/
def inside (s : Cursor) : Bool := s.brackets != 0

/-- The mark that stands here and may continue a form. -/
def continuation? (s : Cursor) : Option Mark := if s.isCut then none else s.mark?

variable {s s' : Cursor} {t : Token} {ts us : List Token} {m : Mark}

@[simp] theorem before_rest : (s.before ts).rest = ts ++ s.rest := rfl

@[simp] theorem before_nesting : (s.before ts).nesting = s.nesting := rfl

@[simp] theorem before_brackets : (s.before ts).brackets = s.brackets := rfl

@[simp] theorem before_total : (s.before ts).total = s.total := rfl

@[simp] theorem before_inside : (s.before ts).inside = s.inside := rfl

@[simp] theorem before_nil : s.before [] = s := rfl

@[simp] theorem before_before : (s.before us).before ts = s.before (ts ++ us) := by
  simp only [before, List.append_assoc]

@[simp] theorem advance_before : (s.before (t :: ts)).advance = s.before ts := rfl

theorem mark?_before : (s.before (t :: ts)).mark? = some m ↔ t.content = .mark m := by
  obtain ⟨content, position, newline⟩ := t
  cases content <;> simp [mark?, before]

theorem isAt_before {m' : Mark} (h : t.content = .mark m) : (s.before (t :: ts)).isAt m' = (m == m') := by
  rw [isAt, mark?_before.mpr h]
  rfl

theorem isCut_before : (s.before (t :: ts)).isCut = false ↔ t.joins s.inside := by
  simp only [isCut, atLineBreak, before, List.cons_append, Bool.and_eq_false_iff, Token.joins, inside]
  cases t.newlineBefore <;> simp

theorem continues_eq : s.continues m = (s.continuation? == some m) := by
  unfold continues continuation? isAt
  cases s.isCut <;> simp

theorem continues_iff : s.continues m = true ↔ s.continuation? = some m := by
  rw [continues_eq, beq_iff_eq]

theorem operator?_eq : s.operator? = s.continuation?.bind BinaryOp.ofMark? := by
  unfold operator? continuation?
  cases s.isCut <;> rfl

theorem continuation?_before :
    (s.before (t :: ts)).continuation? = some m ↔ t.content = .mark m ∧ t.joins s.inside := by
  have hmark : (s.before (t :: ts)).mark? = some m ↔ t.content = .mark m := mark?_before
  have hcut : (s.before (t :: ts)).isCut = false ↔ t.joins s.inside := isCut_before
  unfold continuation?
  rw [← hmark, ← hcut]
  cases (s.before (t :: ts)).isCut <;> simp

theorem exists_before_of_mark? (h : s.mark? = some m) :
    ∃ t, t.content = .mark m ∧ s = s.advance.before [t] := by
  obtain ⟨rest, brackets, nesting, total, stop⟩ := s
  unfold mark? at h
  split at h
  · rename_i position newline rest' hrest
    cases h
    cases hrest
    exact ⟨_, rfl, rfl⟩
  · cases h

theorem name?_before {x : String} : (s.before (t :: ts)).name? = some x ↔ t.content = .name x := by
  obtain ⟨content, position, newline⟩ := t
  cases content <;> simp [name?, before]

theorem exists_before_of_name? {x : String} (h : s.name? = some x) :
    ∃ t, t.content = .name x ∧ s = s.advance.before [t] := by
  obtain ⟨rest, brackets, nesting, total, stop⟩ := s
  unfold name? at h
  split at h
  · rename_i position newline rest' hrest
    cases h
    cases hrest
    exact ⟨_, rfl, rfl⟩
  · cases h

theorem mark?_of_continuation? (h : s.continuation? = some m) : s.mark? = some m := by
  unfold continuation? at h
  split at h
  · cases h
  · exact h

theorem exists_before_of_continuation? (h : s.continuation? = some m) :
    ∃ t, t.content = .mark m ∧ t.joins s.inside ∧ s = s.advance.before [t] := by
  obtain ⟨t, -, hs⟩ := exists_before_of_mark? (mark?_of_continuation? h)
  rw [hs] at h
  obtain ⟨ht, hjoins⟩ := continuation?_before.mp h
  exact ⟨t, ht, hjoins, hs⟩

theorem exists_before_of_operator? {op : BinaryOp} (h : s.operator? = some op) :
    ∃ t, t.operator? = some op ∧ t.joins s.inside ∧ s = s.advance.before [t] := by
  rw [operator?_eq, Option.bind_eq_some_iff] at h
  obtain ⟨m, hm, hop⟩ := h
  obtain ⟨t, ht, hjoins, hs⟩ := exists_before_of_continuation? hm
  refine ⟨t, ?_, hjoins, hs⟩
  rw [Token.operator?, ht]
  exact hop

/-- Only a semicolon, a line break or the end may follow a statement. -/
theorem parted_iff : ¬ (!s.rest.isEmpty && !s.isAt .semicolon && !s.atLineBreak) = true ↔
    ∀ t ∈ s.rest.head?, Parser.isSeparator t = true ∨ t.newlineBefore = true := by
  obtain ⟨rest, brackets, nesting, total, stop⟩ := s
  cases rest with
  | nil => simp
  | cons t rest =>
    have hat : (Cursor.mk (t :: rest) brackets nesting total stop).isAt .semicolon = Parser.isSeparator t := by
      obtain ⟨content, position, newline⟩ := t
      cases content with
      | mark m => cases m <;> rfl
      | number | string | name => rfl
    rw [hat]
    cases hsep : Parser.isSeparator t <;> simp [atLineBreak, hsep]

/-- Whether every operator that continues here is looser than level `least`. -/
def Stops (s : Cursor) (least : Nat) : Prop := ∀ op, s.operator? = some op → op.level < least

theorem Stops.mono {l l' : Nat} (h : s.Stops l) (hle : l ≤ l') : s.Stops l' := fun op hop =>
  Nat.lt_of_lt_of_le (h op hop) hle

/-- The marks of postfix forms. -/
def postfixMarks : List Mark := [.dot, .leftBracket, .leftParen]

/-- Whether no postfix form continues here. -/
def Settled (s : Cursor) : Prop := ∀ m ∈ postfixMarks, s.continuation? ≠ some m

/-- Whether neither a postfix form nor an operator of level `least` continues here. -/
structure Closes (s : Cursor) (least : Nat) : Prop where
  settled : s.Settled
  stops : s.Stops least

/-- Whether nothing that stands here continues an expression. -/
structure Ends (s : Cursor) : Prop extends s.Closes 0 where
  question_ne : s.continuation? ≠ some .question

theorem Closes.mono {l l' : Nat} (h : s.Closes l) (hle : l ≤ l') : s.Closes l' :=
  ⟨h.settled, h.stops.mono hle⟩

theorem eq_of_continuation? {m' : Mark} (hm : s.mark? = some m) (h : s.continuation? = some m') : m' = m := by
  unfold continuation? at h
  split at h
  · cases h
  · exact Option.some.inj (h.symm.trans hm)

theorem closes_of_mark {least : Nat} (hm : s.mark? = some m) (hmarks : m ∉ postfixMarks)
    (hop : ∀ op, BinaryOp.ofMark? m = some op → op.level < least) : s.Closes least := by
  refine ⟨fun m' hm' h => ?_, fun op h => ?_⟩
  · rw [eq_of_continuation? hm h] at hm'
    exact hmarks hm'
  · rw [operator?_eq, Option.bind_eq_some_iff] at h
    obtain ⟨m', hm', h⟩ := h
    rw [eq_of_continuation? hm hm'] at h
    exact hop op h

/-- Before an operator, what is tighter than it has ended. -/
theorem closes_before {op : BinaryOp} (h : t.operator? = some op) :
    (s.before (t :: ts)).Closes (op.level + 1) := by
  obtain ⟨m, hm, hop⟩ := Token.mark_of_operator? h
  refine closes_of_mark (mark?_before.mpr hm) ?_ fun op' hop' => ?_
  · intro hmarks
    have hnone : ∀ m ∈ postfixMarks, BinaryOp.ofMark? m = none := by decide
    rw [hnone m hmarks] at hop
    cases hop
  · cases hop.symm.trans hop'
    exact Nat.lt_succ_self _

theorem operator?_before {op : BinaryOp} (h : t.operator? = some op) (hjoins : t.joins s.inside) :
    (s.before (t :: ts)).operator? = some op := by
  obtain ⟨m, hm, hop⟩ := Token.mark_of_operator? h
  rw [operator?_eq, continuation?_before.mpr ⟨hm, hjoins⟩]
  exact hop

/-- The marks that only follow an expression. -/
def closers : List Mark := [.rightParen, .rightBracket, .rightBrace, .comma, .colon, .semicolon]

theorem ends_of_mark (hm : s.mark? = some m) (h : m ∈ closers) : s.Ends := by
  have hclosers : ∀ m ∈ closers, m ∉ postfixMarks ∧ BinaryOp.ofMark? m = none ∧ m ≠ .question := by decide
  obtain ⟨hmarks, hop, hquestion⟩ := hclosers m h
  refine ⟨closes_of_mark hm hmarks fun op hop' => ?_, fun h => ?_⟩
  · rw [hop] at hop'
    cases hop'
  · exact hquestion (eq_of_continuation? hm h).symm

theorem ends_of_continuation? (h : s.continuation? = none) : s.Ends := by
  refine ⟨⟨fun m _ hm => ?_, fun op hop => ?_⟩, fun hm => ?_⟩
  · rw [h] at hm
    cases hm
  · rw [operator?_eq, h] at hop
    cases hop
  · rw [h] at hm
    cases hm

/-- Where statements are parted, an expression has ended. -/
theorem ends_of_parted (hi : s.inside = false)
    (h : ∀ t ∈ s.rest.head?, Parser.isSeparator t = true ∨ t.newlineBefore = true) : s.Ends := by
  obtain ⟨rest, brackets, nesting, total, stop⟩ := s
  cases rest with
  | nil =>
    refine ends_of_continuation? ?_
    unfold continuation?
    split <;> rfl
  | cons t rest =>
    rcases h t rfl with hseparator | hnewline
    · refine ends_of_mark (m := .semicolon) ?_ (by decide)
      obtain ⟨content, position, newline⟩ := t
      unfold Parser.isSeparator at hseparator
      split at hseparator
      · rename_i hcontent
        cases hcontent
        rfl
      · cases hseparator
    · refine ends_of_continuation? ?_
      have hbrackets : brackets = 0 := by simpa [inside] using hi
      unfold continuation? isCut atLineBreak
      simp [hnewline, hbrackets]

end Cursor

/-! ### The smallest parsers -/

namespace Parser

variable {α : Type} {p : Parser α} {a : α} {s s' : Cursor} {t : Token} {m : Mark}

theorem advance_bind {β : Type} {f : Unit → Parser β} : (advance >>= f) s = f () s.advance := rfl

theorem next_eq_ok : next s = .ok t s' ↔ s = s'.before [t] := by
  obtain ⟨rest, brackets, nesting, total, stop⟩ := s
  constructor
  · intro h
    cases rest with
    | nil => cases h
    | cons first rest => cases h; rfl
  · intro h
    rw [h]
    rfl

theorem next_before {ts : List Token} : next (s.before (t :: ts)) = .ok t (s.before ts) :=
  next_eq_ok.mpr rfl

theorem expect_eq_ok : expect m s = .ok () s' ↔ ∃ t, t.content = .mark m ∧ s = s'.before [t] := by
  unfold expect Cursor.isAt
  constructor
  · intro h
    split at h
    · rename_i hm
      obtain ⟨t, ht, hs⟩ := Cursor.exists_before_of_mark? (eq_of_beq hm)
      cases h
      exact ⟨t, ht, hs⟩
    · split at h <;> cases h
  · intro h
    obtain ⟨t, ht, rfl⟩ := h
    rw [if_pos (beq_iff_eq.mpr (Cursor.mark?_before.mpr ht))]
    rfl

theorem expectName_eq_ok {x : String} :
    expectName s = .ok x s' ↔ ∃ t, t.content = .name x ∧ s = s'.before [t] := by
  unfold expectName
  rw [bind_eq_ok]
  constructor
  · intro h
    obtain ⟨⟨content, position, newline⟩, u, ht, h⟩ := h
    cases content with
    | name y =>
      cases h
      exact ⟨_, rfl, next_eq_ok.mp ht⟩
    | number | string | mark => cases h
  · intro h
    obtain ⟨t, ht, rfl⟩ := h
    refine ⟨t, s', next_eq_ok.mpr rfl, ?_⟩
    rw [ht]
    rfl

theorem enter_eq (s : Cursor) :
    enter s = if maxNesting ≤ s.nesting then .error ⟨s.position, .nestedTooDeeply⟩ s
      else .ok () { s with nesting := s.nesting + 1 } := by
  unfold enter
  rw [get_bind]
  split <;> rfl

theorem enter_eq_ok :
    enter s = .ok () s' ↔ s.nesting < maxNesting ∧ s' = { s with nesting := s.nesting + 1 } := by
  rw [enter_eq]
  split
  · rename_i hfull
    constructor
    · intro h
      cases h
    · intro h
      exact absurd hfull (Nat.not_le_of_lt h.1)
  · rename_i hroom
    constructor
    · intro h
      cases h
      exact ⟨Nat.lt_of_not_le hroom, rfl⟩
    · intro h
      obtain ⟨-, rfl⟩ := h
      rfl

theorem settingNesting_eq_ok {f : Nat → Nat} :
    settingNesting f p s = .ok a s' ↔ ∃ u, p s = .ok a u ∧ s' = { u with nesting := f u.nesting } := by
  unfold settingNesting
  cases p s with
  | ok b u =>
    constructor
    · intro h
      cases h
      exact ⟨u, rfl, rfl⟩
    · intro h
      obtain ⟨_, h, rfl⟩ := h
      cases h
      rfl
  | error d u =>
    constructor
    · intro h
      cases h
    · intro h
      obtain ⟨_, h, -⟩ := h
      cases h

theorem nested_eq_ok :
    nested p s = .ok a s' ↔ s.nesting < maxNesting ∧
      ∃ u, p { s with nesting := s.nesting + 1 } = .ok a u ∧ s' = { u with nesting := u.nesting - 1 } := by
  unfold nested
  rw [bind_eq_ok]
  constructor
  · intro h
    obtain ⟨⟨⟩, u, henter, h⟩ := h
    obtain ⟨hlt, rfl⟩ := enter_eq_ok.mp henter
    exact ⟨hlt, settingNesting_eq_ok.mp h⟩
  · intro h
    obtain ⟨hlt, h⟩ := h
    exact ⟨(), _, enter_eq_ok.mpr ⟨hlt, rfl⟩, settingNesting_eq_ok.mpr h⟩

theorem keepingNesting_eq_ok :
    keepingNesting p s = .ok a s' ↔ ∃ u, p s = .ok a u ∧ s' = { u with nesting := s.nesting } := by
  unfold keepingNesting
  rw [get_bind]
  exact settingNesting_eq_ok

theorem inside_eq_ok {close : Mark} :
    inside close p s = .ok a s' ↔ ∃ (t : Token) (u : Cursor),
      p { s with brackets := s.brackets + 1 } = .ok a (u.before [t]) ∧
      t.content = .mark close ∧ s' = { u with brackets := u.brackets - 1 } := by
  unfold inside
  rw [modify_bind]
  constructor
  · intro h
    obtain ⟨b, v, hp, hclose⟩ := bind_eq_ok.mp h
    obtain ⟨⟨⟩, u, hexpect, hrest⟩ := bind_eq_ok.mp hclose
    obtain ⟨t, ht, rfl⟩ := expect_eq_ok.mp hexpect
    cases hrest
    exact ⟨t, u, hp, ht, rfl⟩
  · intro h
    obtain ⟨t, u, hp, ht, rfl⟩ := h
    rw [bind_ok hp, bind_ok (expect_eq_ok.mpr ⟨t, ht, rfl⟩)]
    rfl

/-! ### One round of the loop over operands -/

variable {right : Nat → Parser Tree} {least left : Nat} {rest : List (BinaryOp × Tree)}

theorem operands_of_stops (h : s.Stops least) : operands right least left s = .ok [] s := by
  cases hop : s.operator? with
  | none =>
    cases left <;> rw [operands, get_bind, hop] <;> rfl
  | some op =>
    cases left <;> rw [operands, get_bind, hop] <;> exact congrFun (if_pos (h op hop)) s

theorem operands_zero (op : BinaryOp) (hop : s.operator? = some op) (h : least ≤ op.level) :
    operands right least 0 s = flaw (.tooManyOperands maxOperands) s := by
  rw [operands, get_bind, hop]
  exact congrFun (if_neg (Nat.not_lt.mpr h)) s

theorem operands_succ (op : BinaryOp) (hop : s.operator? = some op) (h : least ≤ op.level) :
    operands right least (left + 1) s = (do
      let t ← right op.level
      let rest ← operands right least left
      pure ((op, t) :: rest)) s.advance := by
  rw [operands, get_bind, hop]
  exact congrFun (if_neg (Nat.not_lt.mpr h)) s

theorem exists_of_not_stops (h : ¬ s.Stops least) : ∃ op, s.operator? = some op ∧ least ≤ op.level := by
  simp only [Cursor.Stops, Classical.not_forall, Nat.not_lt] at h
  obtain ⟨op, hop, hle⟩ := h
  exact ⟨op, hop, hle⟩

theorem operands_zero_eq_ok :
    operands right least 0 s = .ok rest s' ↔ s.Stops least ∧ rest = [] ∧ s' = s := by
  constructor
  · intro h
    by_cases hstops : s.Stops least
    · rw [operands_of_stops hstops] at h
      cases h
      exact ⟨hstops, rfl, rfl⟩
    · obtain ⟨op, hop, hle⟩ := exists_of_not_stops hstops
      rw [operands_zero op hop hle] at h
      cases h
  · intro h
    obtain ⟨hstops, rfl, rfl⟩ := h
    exact operands_of_stops hstops

theorem operands_succ_eq_ok (h : operands right least (left + 1) s = .ok rest s') :
    (s.Stops least ∧ rest = [] ∧ s' = s) ∨
      ∃ op t u rest', s.operator? = some op ∧ least ≤ op.level ∧ right op.level s.advance = .ok t u ∧
        operands right least left u = .ok rest' s' ∧ rest = (op, t) :: rest' := by
  by_cases hstops : s.Stops least
  · rw [operands_of_stops hstops] at h
    cases h
    exact .inl ⟨hstops, rfl, rfl⟩
  · obtain ⟨op, hop, hle⟩ := exists_of_not_stops hstops
    rw [operands_succ op hop hle] at h
    obtain ⟨t, u, ht, hmore⟩ := bind_eq_ok.mp h
    obtain ⟨rest', v, hrest, hpure⟩ := bind_eq_ok.mp hmore
    cases hpure
    exact .inr ⟨op, t, u, rest', hop, hle, ht, hrest, rfl⟩

end Parser

end PoolScaling.Expr
