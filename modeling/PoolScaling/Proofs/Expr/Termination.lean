import PoolScaling.Proofs.Expr.Completeness
import PoolScaling.Proofs.Expr.Progress

/-! The parser ends.

The parsers of a depth are built from those of the next one, and loops go round a number of
times that is given. Both are bounds on a parser that calls itself, and neither is ever
reached. Said of its equations: those by which the parsers of all depths call each other, and
those of the loops, have a solution at sane cursors, which is the one computed here, and no
other. An equation that could be followed forever would leave its solution open, and so would
one that is followed to a cursor that is not sane.

On the way every parser takes a token, nesting stays within its bound, and what is taken from
a counter has been added to it (`parser_keeps_count`). -/
namespace PoolScaling.Expr
open Change

namespace Parser
open Cursor

variable {α : Type} {tokens : List Token}

/-! ### Recursion -/

/-- Whether two depths have parsers that do the same from `s`. -/
structure Level.SameAt (s : Cursor) (l l' : Level) : Prop where
  expression : l.expression s = l'.expression s
  body : l.body s = l'.body s
  unary : l.unary s = l'.unary s
  postfixes : ∀ t, l.postfixes t s = l'.postfixes t s

/-- The parsers of all depths as one: the nesting says which. -/
def recursive : Level where
  expression s := (levelAt s.nesting).expression s
  body s := (levelAt s.nesting).body s
  unary s := (levelAt s.nesting).unary s
  postfixes t s := (levelAt s.nesting).postfixes t s

/-- Whether `l`, put in place of the parsers of the next depth, gives itself at sane cursors: its
parsers call each other. -/
def Level.Recurs (tokens : List Token) (l : Level) : Prop := ∀ s, s.Sane tokens → l.SameAt s l.around

variable {k : Nat} {s : Cursor} {l l' m m' : Level}

theorem Level.SameAt.symm (h : l.SameAt s l') : l'.SameAt s l :=
  ⟨h.expression.symm, h.body.symm, h.unary.symm, fun t => (h.postfixes t).symm⟩

theorem Level.SameAt.trans (h : l.SameAt s l') (h' : l'.SameAt s m) : l.SameAt s m :=
  ⟨h.expression.trans h'.expression, h.body.trans h'.body, h.unary.trans h'.unary,
    fun t => (h.postfixes t).trans (h'.postfixes t)⟩

theorem Level.Alike.sameAt (h : l.Alike tokens k l') (hs : s.Within tokens k) : l.SameAt s l' :=
  ⟨(h.expression s hs).same, (h.body s hs).same, (h.unary s hs).same, fun t => (h.postfixes t s hs).same⟩

theorem Level.Alike.congr (h : m.Alike tokens k m') (hl : ∀ s, s.Within tokens k → l.SameAt s m)
    (hl' : ∀ s, s.Within tokens k → l'.SameAt s m') : l.Alike tokens k l' where
  expression s hs := (h.expression s hs).congr (hl s hs).expression (hl' s hs).expression
  body s hs := (h.body s hs).congr (hl s hs).body (hl' s hs).body
  unary s hs := (h.unary s hs).congr (hl s hs).unary (hl' s hs).unary
  postfixes t s hs := (h.postfixes t s hs).congr ((hl s hs).postfixes t) ((hl' s hs).postfixes t)

/-- Beyond the greatest depth there are no cursors. -/
theorem alike_of_lt (h : maxNesting < k) (l l' : Level) : l.Alike tokens k l' := by
  have hnone : ∀ {s : Cursor} {P : Prop}, s.Within tokens k → P := fun hs =>
    absurd (Nat.le_trans hs.deep hs.nesting) (Nat.not_le_of_lt h)
  exact ⟨fun _ => hnone, fun _ => hnone, fun _ => hnone, fun _ _ => hnone⟩

/-- Depths that are built from one another do the same, when there are enough of them for the forms
that can still be entered. -/
theorem alike_of_around (depth depth' : Nat → Level)
    (hdepth : ∀ n s, s.Sane tokens → (depth (n + 1)).SameAt s (depth n).around)
    (hdepth' : ∀ n s, s.Sane tokens → (depth' (n + 1)).SameAt s (depth' n).around) (n : Nat) :
    ∀ {n' k : Nat}, maxNesting < n + k → maxNesting < n' + k → (depth n).Alike tokens k (depth' n') := by
  -- One depth less on both sides is enough one form deeper. Without any left, `k` is out of reach.
  induction n with
  | zero => exact fun h _ => alike_of_lt (by omega) _ _
  | succ n ih =>
    intro n' k h h'
    cases n' with
    | zero => exact alike_of_lt (by omega) _ _
    | succ n' =>
      have hinner : (depth n).Alike tokens (k + 1) (depth' n') := ih (by omega) (by omega)
      exact hinner.around.congr (fun s hs => hdepth n s hs.toSane) fun s hs => hdepth' n' s hs.toSane

theorem level_around (n : Nat) (s : Cursor) : (level (n + 1)).SameAt s (level n).around :=
  ⟨rfl, rfl, rfl, fun _ => rfl⟩

theorem recursive_levelAt (s : Cursor) : recursive.SameAt s (levelAt s.nesting) := ⟨rfl, rfl, rfl, fun _ => rfl⟩

/-- With depths enough, it does not matter how many there are. -/
theorem alike_levels (tokens : List Token) {n n' : Nat} (h : maxNesting < n + k) (h' : maxNesting < n' + k) :
    (level n).Alike tokens k (level n') :=
  alike_of_around level level (fun n s _ => level_around n s) (fun n s _ => level_around n s) n h h'

theorem recursive_sameAt (hs : s.Sane tokens) {n : Nat} (h : maxNesting < n + s.nesting) :
    recursive.SameAt s (level n) :=
  (recursive_levelAt s).trans ((alike_levels tokens (by omega) h).sameAt hs.within)

theorem recursive_recurs : recursive.Recurs tokens := by
  intro s hs
  have hinner : recursive.Alike tokens (s.nesting + 1) (levelAt (s.nesting + 1)) :=
    (alike_level tokens _ _).congr (fun u hu => recursive_sameAt hu.toSane (by have := hu.deep; omega))
      fun u _ => ⟨rfl, rfl, rfl, fun _ => rfl⟩
  have haround : recursive.SameAt s (levelAt (s.nesting + 1)).around := by
    rw [← levelAt_eq hs.nesting]
    exact recursive_levelAt s
  exact haround.trans (hinner.around.sameAt hs.within).symm

/-- Parsers that call each other as those of the program do are those of the program. -/
theorem Level.Recurs.sameAt (h : l.Recurs tokens) (hs : s.Sane tokens) : l.SameAt s recursive := by
  have hlevels : l.Alike tokens s.nesting (level (maxNesting + 1)) :=
    alike_of_around (fun _ => l) level (fun _ => h) (fun n s _ => level_around n s) (maxNesting + 1)
      (by omega) (by omega)
  exact (hlevels.sameAt hs.within).trans (recursive_sameAt hs (by omega)).symm

/-! ### Loops -/

/-- Whether `p` is, at sane cursors, the one parser that goes round once and then does as it does
itself. -/
structure Solves (tokens : List Token) (round : Parser α → Parser α) (p : Parser α) : Prop where
  holds : ∀ s, s.Sane tokens → p s = round p s
  unique : ∀ q : Parser α, (∀ s, s.Sane tokens → q s = round q s) → ∀ s, s.Sane tokens → q s = p s

/-- A loop that may go round once for every token that is left. -/
def looping (loop : Nat → Parser α) : Parser α := fun s => loop (s.rest.length + 1) s

section Loops

variable {round : Parser α → Parser α} {loop : Nat → Parser α} {item : Parser α} {close : Mark}

/-- With rounds enough, it does not matter how many there are. -/
theorem RoundsAlike.looping (h : RoundsAlike tokens k round round) (hloop : ∀ n, loop (n + 1) = round (loop n))
    (hs : s.Within tokens k) {rounds : Nat} (hlt : s.rest.length < rounds) :
    Alike (loop rounds) (looping loop) s (s.Took 0) s.Failed := by
  have hround : ∀ n u, u.Within tokens k → loop (n + 1) u = round (loop n) u := fun n u _ => congrFun (hloop n) u
  exact (RoundsAlike.loop h loop loop hround hround rounds hs hlt (Nat.lt_succ_self _)).congr rfl rfl

/-- A loop whose rounds take tokens ends. -/
theorem RoundsAlike.solves (h : ∀ k, RoundsAlike tokens k round round)
    (hloop : ∀ n, loop (n + 1) = round (loop n)) :
    Solves tokens round (Parser.looping loop) where
  holds s hs := by
    have hmore : ∀ u, s.Took 1 u → u.Within tokens s.nesting →
        Alike (loop s.rest.length) (Parser.looping loop) u (u.Took 0) u.Failed := fun u hu hwithin =>
      RoundsAlike.looping (h _) hloop hwithin (by have := hu.length_le; omega)
    exact (congrFun (hloop s.rest.length) s).trans (h _ _ _ s hs.within hmore).same
  unique q hq s hs :=
    (RoundsAlike.loop (h s.nesting) (fun _ => q) loop (fun _ u hu => hq u hu.toSane)
      (fun n u _ => congrFun (hloop n) u) (s.rest.length + 1) hs.within
      (Nat.lt_succ_self _) (Nat.lt_succ_self _)).same

theorem solves_items (hitem : ∀ k, Matches tokens k 1 item item) :
    Solves tokens (itemsRound item close) (Parser.looping (items item close)) :=
  RoundsAlike.solves (fun k => roundsAlike_items (hitem k)) (items_succ item close)

theorem list_eq_looping (hitem : Matches tokens k 1 item item) (hs : s.Within tokens k) :
    list item close s = inside close (Parser.looping (items item close)) s := by
  refine (alike_inside close hs fun u hu => ?_).same
  have hlt : u.rest.length < s.total + 1 := by
    rw [hs.total]
    exact Nat.lt_succ_of_le hu.rest.length_le
  exact RoundsAlike.looping (roundsAlike_items hitem) (items_succ item close) hu hlt

theorem solves_statements (tokens : List Token) : Solves tokens statementsRound (Parser.looping statements) :=
  RoundsAlike.solves (roundsAlike_statements tokens) statements_succ

end Loops

/-! ### The whole -/

/-- Whether `p`, from sane cursors, takes a token when it answers and leaves nesting and brackets
as they were, and comes back to its nesting when it fails. What it leaves is sane again. -/
def Proceeds (tokens : List Token) (p : Parser α) : Prop :=
  ∀ s, s.Sane tokens → Leaves p s (fun u => s.Took 1 u ∧ u.Sane tokens) fun u => s.Failed u ∧ u.Sane tokens

/-- Whether `p` proceeds past a mark `close` that is the last token it takes. -/
def ProceedsPast (tokens : List Token) (close : Mark) (p : Parser α) : Prop :=
  ∀ s, s.Sane tokens → Leaves p s (fun u => s.Closed close u ∧ u.Sane tokens) fun u => s.Failed u ∧ u.Sane tokens

/-- Whether the nesting that `nested p` takes one from is one more than the nesting it began with,
also when `p` fails. -/
def KeepsForm (tokens : List Token) (p : Parser α) : Prop :=
  ∀ s : Cursor, s.Sane tokens → s.nesting < maxNesting → (stateOf (p s.entered)).nesting = s.nesting + 1

/-- Whether the brackets that `inside close p` takes one from are one more than those it began with. -/
def KeepsBracket (tokens : List Token) (close : Mark) (p : Parser α) : Prop :=
  ∀ (s : Cursor) a u, s.Sane tokens → (do let a ← p; expect close; pure a : Parser α) s.opened = .ok a u →
    u.brackets = s.brackets + 1

/-- Whether all parsers of a depth proceed. -/
structure Level.Proceeds (tokens : List Token) (l : Level) : Prop where
  expression : Parser.Proceeds tokens l.expression
  body : Parser.Proceeds tokens l.body
  binary : ∀ levels least, Parser.Proceeds tokens (binary l.unary levels least)
  unary : Parser.Proceeds tokens l.unary
  bare : Parser.Proceeds tokens (keepingNesting (primary l.expression >>= l.postfixes))
  primary : Parser.Proceeds tokens (primary l.expression)
  field : Parser.Proceeds tokens (field l.expression)
  /-- Postfix forms go deeper, but not too deep. -/
  postfixes : ∀ t s, s.Sane tokens → Leaves (l.postfixes t) s (s.Climbed 0) s.Fell
  list : ∀ close, ProceedsPast tokens close (Parser.list l.expression close)
  record : ProceedsPast tokens .rightBrace (Parser.list (Parser.field l.expression) .rightBrace)

/-- Whether nothing is taken from a counter that has not been added to it, by the parsers of the
depth around `l`. -/
structure Level.Counts (tokens : List Token) (l : Level) : Prop where
  body : KeepsForm tokens l.body
  unary : KeepsForm tokens l.unary
  expression : ∀ close, KeepsBracket tokens close l.expression
  items : ∀ close, KeepsBracket tokens close (Parser.items l.expression close (tokens.length + 1))
  fields : KeepsBracket tokens .rightBrace (Parser.items (field l.expression) .rightBrace (tokens.length + 1))

variable {p : Parser α} {close : Mark} {n : Nat}

theorem Matches.proceeds (h : ∀ k, Matches tokens k 1 p p) : Proceeds tokens p := fun s hs =>
  ((h _ s hs.within).mono (fun _ hu => ⟨hu, hu.sane hs⟩) fun _ hu => ⟨hu, hu.sane hs⟩).toLeaves

theorem Proceeds.matches (h : Proceeds tokens p) (k : Nat) : Matches tokens k 1 p p := fun s hs =>
  Alike.mono ⟨h s hs.toSane, rfl⟩ (fun _ hu => hu.1) fun _ hu => hu.1

theorem proceedsPast_list (close : Mark) (h : ∀ k, Matches tokens k 1 p p) :
    ProceedsPast tokens close (list p close) := fun _ hs =>
  have hlist := alike_list close (h _) hs.within
  (hlist.mono (fun _ hu => ⟨hu, hu.took.sane hs⟩) fun _ hu => ⟨hu, hu.sane hs⟩).toLeaves

theorem Matches.keepsForm (h : ∀ k, Matches tokens k n p p) : KeepsForm tokens p := by
  intro s hs hlt
  have hentered := h (s.nesting + 1) s.entered (hs.within.entered hlt)
  cases hp : p s.entered with
  | ok a u => exact (hentered.ok a u hp).nesting
  | error d u => exact (hentered.error d u hp).nesting

theorem Matches.keepsBracket (close : Mark) (h : ∀ k, Matches tokens k n p p) : KeepsBracket tokens close p := by
  intro s a u hs hp
  have hclosed := (h s.nesting).bind fun a => (matches_expect close).bind fun _ => matches_pure a
  exact ((hclosed s.opened hs.within.opened).ok a u hp).brackets

variable {l : Level}

theorem Level.Alike.proceeds (h : ∀ k, l.Alike tokens k l) : l.Proceeds tokens where
  expression := Matches.proceeds fun k => (h k).expression
  body := Matches.proceeds fun k => (h k).body
  binary levels least := Matches.proceeds fun k => matches_binary (h k).unary levels least
  unary := Matches.proceeds fun k => (h k).unary
  bare := Matches.proceeds fun k => matches_bare (h k).expression (h k).postfixes
  primary := Matches.proceeds fun k => matches_primary (h k).expression
  field := Matches.proceeds fun k => matches_field (h k).expression
  postfixes t s hs := ((h s.nesting).postfixes t s hs.within).toLeaves
  list close := proceedsPast_list close fun k => (h k).expression
  record := proceedsPast_list .rightBrace fun k => matches_field (h k).expression

theorem Level.Alike.counts (h : ∀ k, l.Alike tokens k l) : l.Counts tokens where
  body := Matches.keepsForm fun k => (h k).body
  unary := Matches.keepsForm fun k => (h k).unary
  expression close := Matches.keepsBracket close fun k => (h k).expression
  items close := Matches.keepsBracket close fun k => (h k).expression.items close (Nat.lt_succ_self _)
  fields := Matches.keepsBracket .rightBrace fun k =>
    (matches_field (h k).expression).items .rightBrace (Nat.lt_succ_self _)

/-- Where the parser starts. -/
def start (tokens : List Token) (stop : Nat) : Cursor := ⟨tokens, 0, 0, tokens.length, stop⟩

theorem sane_start (tokens : List Token) (stop : Nat) : (start tokens stop).Sane tokens :=
  ⟨List.suffix_refl _, rfl, Nat.zero_le _⟩

/-- Nothing but this goes deeper, and only as long as forms may nest. -/
theorem leaves_enter {s : Cursor} (hs : s.Sane tokens) :
    Leaves enter s (fun u => u = s.entered ∧ u.Sane tokens) fun u => u = s := by
  refine ((alike_enter (E := fun u => u = s) rfl).mono (fun u hu => ?_) fun _ hu => hu).toLeaves
  obtain ⟨hlt, rfl⟩ := hu
  exact ⟨rfl, (hs.within.entered hlt).toSane⟩

theorem parse_eq_looping (tokens : List Token) (stop : Nat) :
    parse tokens stop = result (looping statements (start tokens stop)) := by
  unfold parse looping start
  split <;> rename_i h <;> rw [h] <;> rfl

/-- Whether the calls and the loops of the parser end at all sane cursors: each equation that they
follow has one solution. The loop over operands counts them down and needs none, and the loop over
postfix forms is one of the calls. -/
structure Terminates (tokens : List Token) : Prop where
  /-- The parsers of all depths call each other. -/
  recurs : recursive.Recurs tokens
  calls : ∀ l : Level, l.Recurs tokens → ∀ s, s.Sane tokens → l.SameAt s recursive
  /-- With depths enough for the forms that may still be entered, more make no difference. -/
  depths : ∀ n s, s.Sane tokens → maxNesting < n + s.nesting → recursive.SameAt s (level n)
  items : ∀ {α : Type} (item : Parser α) close, Proceeds tokens item →
    Solves tokens (itemsRound item close) (looping (items item close))
  /-- The rounds of a list are enough. -/
  lists : ∀ {α : Type} (item : Parser α) close, Proceeds tokens item →
    ∀ s, s.Sane tokens → list item close s = inside close (looping (Parser.items item close)) s
  statements : Solves tokens statementsRound (looping statements)

theorem terminates (tokens : List Token) : Terminates tokens where
  recurs := recursive_recurs
  calls _ h _ hs := h.sameAt hs
  depths _ _ hs h := recursive_sameAt hs h
  items _ _ hitem := solves_items hitem.matches
  lists _ _ hitem _ hs := list_eq_looping (hitem.matches _) hs.within
  statements := solves_statements tokens

/-- Every parser moves on and every counter comes back, from wherever among the tokens it is run.
So calls and loops end, and the script that is read is what they come to. -/
theorem parser_keeps_count (tokens : List Token) (stop : Nat) :
    (start tokens stop).Sane tokens ∧
      (∀ s, s.Sane tokens → Leaves enter s (fun u => u = s.entered ∧ u.Sane tokens) fun u => u = s) ∧
      (∀ n, (level n).Proceeds tokens ∧ (level n).Counts tokens) ∧ Proceeds tokens statement ∧ Terminates tokens ∧
      parse tokens stop = result (looping statements (start tokens stop)) :=
  ⟨sane_start tokens stop, fun _ => leaves_enter,
    fun n => ⟨Level.Alike.proceeds (alike_level tokens n), Level.Alike.counts (alike_level tokens n)⟩,
    Matches.proceeds (matches_statement tokens), terminates tokens, parse_eq_looping tokens stop⟩

/-- In `(1)` the statement takes all three tokens. -/
theorem parser_keeps_count_parenthesized :
    ∃ a u, statement (start [⟨.mark .leftParen, 0, false⟩, ⟨.number 1, 1, false⟩, ⟨.mark .rightParen, 2, false⟩] 3) =
        .ok a u ∧ u.rest = [] ∧ u.nesting = 0 ∧ u.brackets = 0 ∧
      (start [⟨.mark .leftParen, 0, false⟩, ⟨.number 1, 1, false⟩, ⟨.mark .rightParen, 2, false⟩] 3).Took 1 u := by
  obtain ⟨hstart, -, -, hstatement, -⟩ :=
    parser_keeps_count [⟨.mark .leftParen, 0, false⟩, ⟨.number 1, 1, false⟩, ⟨.mark .rightParen, 2, false⟩] 3
  exact ⟨_, _, rfl, rfl, rfl, rfl, ((hstatement _ hstart).ok _ _ rfl).1⟩

end Parser

end PoolScaling.Expr
