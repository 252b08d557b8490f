import PoolScaling.Proofs.Expr.Soundness

/-! How far parsers go.

A cursor is sane when it is at a place among the tokens and no deeper than forms may nest.
From there a parser that answers takes tokens and leaves nesting and brackets as they were,
and one that fails comes back to its nesting as well. `Alike` says so of two parsers at once
that do the same: then whatever two parsers are built from the two does the same, as nothing
but their behaviour at sane cursors is asked for. There is one rule for each way to build a
parser, and the depths are related by one step (`Level.Alike.around`). -/
namespace PoolScaling.Expr

/-! ### Cursors -/

namespace Cursor

/-- Whether a cursor is at a place among `tokens`, or at their end, and no deeper than forms
may nest. -/
structure Sane (tokens : List Token) (s : Cursor) : Prop where
  rest : s.rest <:+ tokens
  total : s.total = tokens.length
  nesting : s.nesting ≤ maxNesting

/-- Whether a cursor is sane and `k` forms deep or deeper. -/
structure Within (tokens : List Token) (k : Nat) (s : Cursor) : Prop extends s.Sane tokens where
  deep : k ≤ s.nesting

/-- `s.Took n u` says that `u` is behind `n` tokens of `s` or more, and otherwise as `s`. -/
def Took (n : Nat) (s u : Cursor) : Prop := ∃ ts, n ≤ ts.length ∧ s = u.before ts

/-- `s.Closed close u` says that `u` is just behind a mark `close`, and otherwise as `s`. -/
def Closed (close : Mark) (s u : Cursor) : Prop :=
  ∃ ts c, c.content = .mark close ∧ s = u.before (ts ++ [c])

/-- `s.Failed u` says that `u` is as deep as `s`, and that no token has been taken back.
Brackets may be left open. -/
structure Failed (s u : Cursor) : Prop where
  rest : u.rest <:+ s.rest
  total : u.total = s.total
  nesting : u.nesting = s.nesting

/-- `s.Climbed n u` says that `u` is behind `n` tokens of `s` or more, and has become deeper by
postfix forms. -/
structure Climbed (n : Nat) (s u : Cursor) : Prop where
  took : s.Took n { u with nesting := s.nesting }
  deep : s.nesting ≤ u.nesting
  nesting : u.nesting ≤ maxNesting

/-- `s.Fell u` says that no token has been taken back, and that `u` has become deeper by postfix
forms. -/
structure Fell (s u : Cursor) : Prop where
  rest : u.rest <:+ s.rest
  total : u.total = s.total
  deep : s.nesting ≤ u.nesting
  nesting : u.nesting ≤ maxNesting

/-- The cursor one form deeper. -/
def entered (s : Cursor) : Cursor := { s with nesting := s.nesting + 1 }

/-- The cursor behind one more open bracket. -/
def opened (s : Cursor) : Cursor := { s with brackets := s.brackets + 1 }

variable {tokens : List Token} {s u v : Cursor} {k m n : Nat} {t : Token} {close : Mark}

theorem Took.refl (s : Cursor) : s.Took 0 s := ⟨[], Nat.le_refl _, rfl⟩

theorem took_one (h : s = u.before [t]) : s.Took 1 u := ⟨[t], Nat.le_refl _, h⟩

theorem Took.mono (h : s.Took n u) (hle : m ≤ n) : s.Took m u := by
  obtain ⟨ts, hlength, hs⟩ := h
  exact ⟨ts, Nat.le_trans hle hlength, hs⟩

theorem Took.trans (h : s.Took m u) (h' : u.Took n v) : s.Took (m + n) v := by
  obtain ⟨ts, hlength, rfl⟩ := h
  obtain ⟨us, hlength', rfl⟩ := h'
  exact ⟨ts ++ us, by rw [List.length_append]; omega, before_before⟩

theorem Took.rest (h : s.Took n u) : u.rest <:+ s.rest := by
  obtain ⟨ts, -, rfl⟩ := h
  exact List.suffix_append ts u.rest

theorem Took.length_le (h : s.Took n u) : n + u.rest.length ≤ s.rest.length := by
  obtain ⟨ts, hlength, rfl⟩ := h
  rw [before_rest, List.length_append]
  omega

theorem Took.nesting (h : s.Took n u) : u.nesting = s.nesting := by
  obtain ⟨ts, -, rfl⟩ := h
  rfl

theorem Took.brackets (h : s.Took n u) : u.brackets = s.brackets := by
  obtain ⟨ts, -, rfl⟩ := h
  rfl

theorem Took.total (h : s.Took n u) : u.total = s.total := by
  obtain ⟨ts, -, rfl⟩ := h
  rfl

theorem Took.sane (h : s.Took n u) (hs : s.Sane tokens) : u.Sane tokens where
  rest := h.rest.trans hs.rest
  total := h.total.trans hs.total
  nesting := Nat.le_trans (Nat.le_of_eq h.nesting) hs.nesting

theorem Took.within (h : s.Took n u) (hs : s.Within tokens k) : u.Within tokens k :=
  ⟨h.sane hs.toSane, Nat.le_trans hs.deep (Nat.le_of_eq h.nesting.symm)⟩

theorem Sane.within (hs : s.Sane tokens) : s.Within tokens s.nesting := ⟨hs, Nat.le_refl _⟩

theorem Failed.refl (s : Cursor) : s.Failed s := ⟨List.suffix_refl _, rfl, rfl⟩

theorem Failed.sane (h : s.Failed u) (hs : s.Sane tokens) : u.Sane tokens where
  rest := h.rest.trans hs.rest
  total := h.total.trans hs.total
  nesting := Nat.le_trans (Nat.le_of_eq h.nesting) hs.nesting

theorem Took.failed (h : s.Took n u) (h' : u.Failed v) : s.Failed v :=
  ⟨h'.rest.trans h.rest, h'.total.trans h.total, h'.nesting.trans h.nesting⟩

theorem Closed.took (h : s.Closed close u) : s.Took 1 u := by
  obtain ⟨ts, c, -, hs⟩ := h
  exact ⟨ts ++ [c], by simp, hs⟩

theorem Within.entered (hs : s.Within tokens k) (hlt : s.nesting < maxNesting) :
    s.entered.Within tokens (k + 1) :=
  ⟨⟨hs.rest, hs.total, hlt⟩, Nat.succ_le_succ hs.deep⟩

theorem Within.opened (hs : s.Within tokens k) : s.opened.Within tokens k :=
  ⟨⟨hs.rest, hs.total, hs.nesting⟩, hs.deep⟩

/-- Coming back from a form. -/
theorem Took.left (h : s.entered.Took n u) : s.Took n { u with nesting := u.nesting - 1 } := by
  have hnesting : u.nesting - 1 = s.nesting := by rw [h.nesting]; rfl
  obtain ⟨ts, hlength, hu⟩ := h
  rw [hnesting]
  exact ⟨ts, hlength, Parser.nesting_eq_before hu⟩

/-- Closing a bracket. -/
theorem Took.closed (h : s.opened.Took n u) (ht : t.content = .mark close) (hu : u = v.before [t]) :
    s.Closed close { v with brackets := v.brackets - 1 } := by
  have hbrackets : v.brackets - 1 = s.brackets := by
    rw [(took_one hu).brackets, h.brackets]
    rfl
  obtain ⟨ts, -, hs⟩ := h
  rw [hu, before_before] at hs
  rw [hbrackets]
  exact ⟨ts, t, ht, Parser.brackets_eq_before hs⟩

theorem Climbed.refl (hs : s.nesting ≤ maxNesting) : s.Climbed 0 s := ⟨.refl s, Nat.le_refl _, hs⟩

theorem Fell.refl (hs : s.nesting ≤ maxNesting) : s.Fell s := ⟨List.suffix_refl _, rfl, Nat.le_refl _, hs⟩

theorem Took.climbed (h : s.Took m u) (h' : u.Climbed n v) : s.Climbed (m + n) v := by
  obtain ⟨htook, hdeep, hnesting⟩ := h'
  rw [h.nesting] at htook hdeep
  exact ⟨h.trans htook, hdeep, hnesting⟩

theorem Took.fell (h : s.Took n u) (h' : u.Fell v) : s.Fell v :=
  ⟨h'.rest.trans h.rest, h'.total.trans h.total, Nat.le_trans (Nat.le_of_eq h.nesting.symm) h'.deep, h'.nesting⟩

/-- Going on from a form that has been entered. -/
theorem Climbed.outer (h : s.entered.Climbed n u) : s.Climbed n u := by
  obtain ⟨⟨ts, hlength, hs⟩, hdeep, hnesting⟩ := h
  have hs' := Parser.nesting_eq_before hs
  exact ⟨⟨ts, hlength, hs'⟩, Nat.le_of_succ_le hdeep, hnesting⟩

theorem Fell.outer (h : s.entered.Fell u) : s.Fell u :=
  ⟨h.rest, h.total, Nat.le_of_succ_le h.deep, h.nesting⟩

theorem Failed.fell (h : s.Failed u) (hs : s.nesting ≤ maxNesting) : s.Fell u :=
  ⟨h.rest, h.total, Nat.le_of_eq h.nesting.symm, Nat.le_trans (Nat.le_of_eq h.nesting) hs⟩

end Cursor

/-! ### What a parser leaves -/

namespace Parser
open Cursor

variable {α β : Type}

/-- What `p` leaves from `s`: a cursor of `Q` when it answers, one of `E` when it fails. -/
structure Leaves (p : Parser α) (s : Cursor) (Q E : Cursor → Prop) : Prop where
  ok : ∀ a u, p s = .ok a u → Q u
  error : ∀ d u, p s = .error d u → E u

/-- Two parsers that do the same from `s`. -/
structure Alike (p p' : Parser α) (s : Cursor) (Q E : Cursor → Prop) : Prop extends Leaves p s Q E where
  same : p s = p' s

/-- Two parsers that do the same at `k` forms or more, take `n` tokens or more when they answer,
and come back to their nesting in any case. -/
def Matches (tokens : List Token) (k n : Nat) (p p' : Parser α) : Prop :=
  ∀ s, s.Within tokens k → Alike p p' s (s.Took n) s.Failed

variable {tokens : List Token} {p p' : Parser α} {f f' : α → Parser β} {s u : Cursor}
  {Q Q' E E' : Cursor → Prop} {k m n : Nat}

theorem alike_of_ok {a : α} (hp : p s = .ok a u) (hp' : p' s = .ok a u) (h : Q u) : Alike p p' s Q E := by
  refine ⟨⟨fun b v hv => ?_, fun d v hv => ?_⟩, hp.trans hp'.symm⟩
  · cases hp.symm.trans hv
    exact h
  · cases hp.symm.trans hv

theorem alike_of_error {d : Defect} (hp : p s = .error d u) (hp' : p' s = .error d u) (h : E u) :
    Alike p p' s Q E := by
  refine ⟨⟨fun a v hv => ?_, fun d' v hv => ?_⟩, hp.trans hp'.symm⟩
  · cases hp.symm.trans hv
  · cases hp.symm.trans hv
    exact h

theorem alike_pure (a : α) (h : Q s) : Alike (pure a) (pure a) s Q E := alike_of_ok rfl rfl h

theorem alike_flaw (g : Flaw) (h : E s) : Alike (flaw g : Parser α) (flaw g) s Q E := alike_of_error rfl rfl h

theorem alike_throw (d : Defect) (h : E s) : Alike (throw d : Parser α) (throw d) s Q E :=
  alike_of_error rfl rfl h

theorem Alike.mono (h : Alike p p' s Q' E') (hQ : ∀ u, Q' u → Q u) (hE : ∀ u, E' u → E u) :
    Alike p p' s Q E :=
  ⟨⟨fun a u hp => hQ u (h.ok a u hp), fun d u hp => hE u (h.error d u hp)⟩, h.same⟩

/-- Parsers that do from `s` what two others do from `u`. -/
theorem Alike.congr {q q' : Parser α} (h : Alike q q' u Q E) (hp : p s = q u) (hp' : p' s = q' u) :
    Alike p p' s Q E :=
  ⟨⟨fun a v hv => h.ok a v (hp.symm.trans hv), fun d v hv => h.error d v (hp.symm.trans hv)⟩,
    hp.trans (h.same.trans hp'.symm)⟩

/-- What follows an answer starts at the cursor that is left. -/
theorem Alike.bind (h : Alike p p' s Q' E) (hf : ∀ a u, Q' u → Alike (f a) (f' a) u Q E) :
    Alike (p >>= f) (p' >>= f') s Q E := by
  cases hp : p s with
  | ok a u => exact (hf a u (h.ok a u hp)).congr (bind_ok hp) (bind_ok (h.same.symm.trans hp))
  | error d u => exact alike_of_error (bind_error hp) (bind_error (h.same.symm.trans hp)) (h.error d u hp)

theorem alike_flaw_bind (g : Flaw) (h : E s) : Alike ((flaw g : Parser α) >>= f) (flaw g >>= f') s Q E :=
  alike_of_error rfl rfl h

theorem alike_get {f f' : Cursor → Parser β} (h : Alike (f s) (f' s) s Q E) :
    Alike (get >>= f) (get >>= f') s Q E := h.congr rfl rfl

theorem alike_modify {g : Cursor → Cursor} {q q' : Parser β} (h : Alike q q' (g s) Q E) :
    Alike (do modify g; q) (do modify g; q') s Q E := h.congr rfl rfl

/-- What is done from `u`, counted from a cursor before it. -/
theorem Alike.since {l : Nat} (h : Alike p p' u (u.Took n) u.Failed) (hu : s.Took m u) (hle : l ≤ m + n) :
    Alike p p' u (s.Took l) s.Failed :=
  h.mono (fun _ hv => (hu.trans hv).mono hle) fun _ => hu.failed

/-- Tokens are taken one parser after the other. -/
theorem Alike.then (h : Alike p p' s (s.Took m) s.Failed) (hs : s.Within tokens k)
    (hf : ∀ a, Matches tokens k n (f a) (f' a)) : Alike (p >>= f) (p' >>= f') s (s.Took (m + n)) s.Failed :=
  h.bind fun a u hu => (hf a u (hu.within hs)).since hu (Nat.le_refl _)

theorem Matches.mono (h : Matches tokens k n p p') (hle : m ≤ n) : Matches tokens k m p p' := fun s hs =>
  (h s hs).mono (fun _ hu => hu.mono hle) fun _ hu => hu

theorem matches_pure (a : α) : Matches tokens k 0 (pure a) (pure a) := fun s _ => alike_pure a (.refl s)

theorem matches_flaw (g : Flaw) : Matches tokens k n (flaw g : Parser α) (flaw g) := fun s _ =>
  alike_flaw g (.refl s)

theorem matches_throw (d : Defect) : Matches tokens k n (throw d : Parser α) (throw d) := fun s _ =>
  alike_throw d (.refl s)

theorem Matches.bind (h : Matches tokens k m p p') (hf : ∀ a, Matches tokens k n (f a) (f' a)) :
    Matches tokens k (m + n) (p >>= f) (p' >>= f') := fun s hs => (h s hs).then hs hf

/-- After `p`, no more tokens need be taken. -/
theorem Matches.before (h : Matches tokens k n p p') (hf : ∀ a, Matches tokens k 0 (f a) (f' a)) :
    Matches tokens k n (p >>= f) (p' >>= f') := h.bind hf

theorem Matches.map (h : Matches tokens k n p p') (g : α → β) : Matches tokens k n (g <$> p) (g <$> p') := by
  rw [map_eq_pure_bind, map_eq_pure_bind]
  exact h.before fun a => matches_pure (g a)

/-! ### Single tokens -/

theorem alike_advance {q q' : Parser β} {t : Token} (h : s = s.advance.before [t]) (hs : s.Within tokens k)
    (hq : Matches tokens k n q q') : Alike (do advance; q) (do advance; q') s (s.Took (1 + n)) s.Failed :=
  alike_modify ((hq s.advance ((took_one h).within hs)).since (took_one h) (Nat.le_refl _))

theorem matches_next : Matches tokens k 1 next next := by
  refine fun s _ => ⟨⟨fun t u hp => took_one (next_eq_ok.mp hp), fun d u hp => ?_⟩, rfl⟩
  unfold next at hp
  split at hp <;> cases hp
  exact .refl s

theorem alike_expect (mark : Mark) (s : Cursor) :
    Alike (expect mark) (expect mark) s (fun u => ∃ t, t.content = .mark mark ∧ s = u.before [t]) s.Failed := by
  refine ⟨⟨fun _ u hp => expect_eq_ok.mp hp, fun d u hp => ?_⟩, rfl⟩
  unfold expect at hp
  split at hp
  · cases hp
  · split at hp <;> cases hp <;> exact .refl s

theorem matches_expect (mark : Mark) : Matches tokens k 1 (expect mark) (expect mark) := fun s _ =>
  (alike_expect mark s).mono (fun _ ⟨_, _, hu⟩ => took_one hu) fun _ hu => hu

theorem matches_expectName : Matches tokens k 1 expectName expectName := by
  refine matches_next.before fun t => ?_
  split
  · exact matches_pure _
  · exact matches_throw _

/-! ### Nesting and brackets -/

theorem alike_enter (h : E s) : Alike enter enter s (fun u => s.nesting < maxNesting ∧ u = s.entered) E := by
  refine ⟨⟨fun _ u hp => enter_eq_ok.mp hp, fun d u hp => ?_⟩, rfl⟩
  rw [enter_eq] at hp
  split at hp <;> cases hp
  exact h

theorem Alike.entering (h : s.nesting < maxNesting → Alike p p' s.entered Q E) (hfull : E s) :
    Alike (do enter; p) (do enter; p') s Q E := by
  refine (alike_enter hfull).bind fun _ u hu => ?_
  obtain ⟨hlt, rfl⟩ := hu
  exact h hlt

theorem Alike.settingNesting {g : Nat → Nat}
    (h : Alike p p' s (fun u => Q { u with nesting := g u.nesting }) fun u => E { u with nesting := g u.nesting }) :
    Alike (settingNesting g p) (settingNesting g p') s Q E := by
  have hsame : Parser.settingNesting g p s = Parser.settingNesting g p' s := by
    rw [Parser.settingNesting, Parser.settingNesting, h.same]
  refine ⟨⟨fun a u hp => ?_, fun d u hp => ?_⟩, hsame⟩
  · obtain ⟨v, hv, rfl⟩ := settingNesting_eq_ok.mp hp
    exact h.ok a v hv
  · unfold Parser.settingNesting at hp
    cases hv : p s with
    | ok a v =>
      rw [hv] at hp
      cases hp
    | error d v =>
      rw [hv] at hp
      cases hp
      exact h.error d v hv

theorem Matches.nested (h : Matches tokens (k + 1) n p p') : Matches tokens k n (nested p) (nested p') := by
  intro s hs
  refine Alike.entering (fun hlt => Alike.settingNesting ?_) (.refl s)
  refine (h s.entered (hs.entered hlt)).mono (fun _ hu => hu.left) fun u hu => ⟨hu.rest, hu.total, ?_⟩
  show u.nesting - 1 = s.nesting
  rw [hu.nesting]
  rfl

theorem Alike.keepingNesting (h : Alike p p' s (s.Climbed n) s.Fell) :
    Alike (keepingNesting p) (keepingNesting p') s (s.Took n) s.Failed :=
  alike_get <| Alike.settingNesting <| h.mono (fun _ hu => hu.took) fun _ hu => ⟨hu.rest, hu.total, rfl⟩

theorem alike_inside (close : Mark) (hs : s.Within tokens k) (h : Matches tokens k 0 p p') :
    Alike (inside close p) (inside close p') s (s.Closed close) s.Failed := by
  refine alike_modify ?_
  have hfailed : ∀ v, s.opened.Failed v → s.Failed v := fun v hv => ⟨hv.rest, hv.total, hv.nesting⟩
  refine ((h s.opened hs.opened).mono (fun _ hu => hu) hfailed).bind fun a u hu => ?_
  refine ((alike_expect close u).mono (fun _ hv => hv) fun v hv => hfailed v (hu.failed hv)).bind fun _ v hv => ?_
  obtain ⟨t, ht, huv⟩ := hv
  exact alike_modify (alike_pure a (hu.closed ht huv))

theorem Matches.inside (close : Mark) (h : Matches tokens k 0 p p') :
    Matches tokens k 1 (inside close p) (inside close p') := fun _ hs =>
  (alike_inside close hs h).mono (fun _ hu => hu.took) fun _ hu => hu

/-! ### Loops -/

/-- Two ways to go round a loop that do the same, as long as what follows them does from where
they have taken a token. -/
def RoundsAlike (tokens : List Token) (k : Nat) (round round' : Parser α → Parser α) : Prop :=
  ∀ (more more' : Parser α) (s : Cursor), s.Within tokens k →
    (∀ u, s.Took 1 u → u.Within tokens k → Alike more more' u (u.Took 0) u.Failed) →
    Alike (round more) (round' more') s (s.Took 0) s.Failed

/-- Loops with rounds enough for the tokens that are left do the same: none of them uses up its
rounds. -/
theorem RoundsAlike.loop {round round' : Parser α → Parser α} (h : RoundsAlike tokens k round round')
    (loop loop' : Nat → Parser α) (hloop : ∀ n s, s.Within tokens k → loop (n + 1) s = round (loop n) s)
    (hloop' : ∀ n s, s.Within tokens k → loop' (n + 1) s = round' (loop' n) s) (rounds : Nat) :
    ∀ {rounds' : Nat} {s : Cursor}, s.Within tokens k → s.rest.length < rounds → s.rest.length < rounds' →
      Alike (loop rounds) (loop' rounds') s (s.Took 0) s.Failed := by
  -- Wherever a round goes on, it has taken a token, so one round less is still enough there.
  induction rounds with
  | zero =>
    intro rounds' s _ hlt
    omega
  | succ rounds ih =>
    intro rounds' s hs hlt hlt'
    cases rounds' with
    | zero => omega
    | succ rounds' =>
      refine (h _ _ s hs fun u hu hwithin => ?_).congr (hloop rounds s hs) (hloop' rounds' s hs)
      have hlength := hu.length_le
      exact ih hwithin (by omega) (by omega)

/-! ### Items -/

/-- One round of the loop over items, with `more` for the rounds after it. -/
def itemsRound (item : Parser α) (close : Mark) (more : Parser (List α)) : Parser (List α) := do
  if (← get).isAt close then pure []
  else
    let a ← item
    unless (← get).isAt close do expect .comma
    let as ← more
    pure (a :: as)

theorem items_succ (item : Parser α) (close : Mark) (rounds : Nat) :
    items item close (rounds + 1) = itemsRound item close (items item close rounds) := rfl

variable {item item' : Parser α} {close : Mark}

/-- An item takes a token, so what follows it has fewer left. -/
theorem roundsAlike_items (hitem : Matches tokens k 1 item item') :
    RoundsAlike tokens k (itemsRound item close) (itemsRound item' close) := by
  intro more more' s hs hmore
  refine alike_get ?_
  split
  · exact alike_pure [] (.refl s)
  · refine (hitem s hs).bind fun a u hu => alike_get ?_
    have hcons : ∀ v, s.Took 1 v →
        Alike (do let as ← more; pure (a :: as)) (do let as ← more'; pure (a :: as)) v (s.Took 0) s.Failed := by
      intro v hv
      have hrest := (hmore v hv (hv.within hs)).then (hv.within hs) fun as => matches_pure (a :: as)
      exact hrest.since hv (Nat.zero_le _)
    split
    · exact hcons u hu
    · have hcomma := (matches_expect .comma u (hu.within hs)).since hu (Nat.le_add_right 1 1)
      exact hcomma.bind fun _ v hv => hcons v hv

theorem Matches.items (close : Mark) (hitem : Matches tokens k 1 item item') {rounds : Nat}
    (h : tokens.length < rounds) :
    Matches tokens k 0 (Parser.items item close rounds) (Parser.items item' close rounds) := by
  intro s hs
  have hlt : s.rest.length < rounds := Nat.lt_of_le_of_lt hs.rest.length_le h
  exact RoundsAlike.loop (roundsAlike_items hitem) (Parser.items item close) (Parser.items item' close)
    (fun n u _ => congrFun (items_succ item close n) u) (fun n u _ => congrFun (items_succ item' close n) u)
    rounds hs hlt hlt

/-- A list asks for more rounds than there are tokens. -/
theorem alike_list (close : Mark) (hitem : Matches tokens k 1 item item') (hs : s.Within tokens k) :
    Alike (list item close) (list item' close) s (s.Closed close) s.Failed :=
  alike_get (alike_inside close hs (hitem.items close (by rw [hs.total]; exact Nat.lt_succ_self _)))

theorem Matches.list (close : Mark) (hitem : Matches tokens k 1 item item') :
    Matches tokens k 1 (list item close) (list item' close) := fun _ hs =>
  (alike_list close hitem hs).mono (fun _ hu => hu.took) fun _ hu => hu

/-! ### Operations -/

theorem matches_operands {right right' : Nat → Parser Tree} (least : Nat)
    (hright : ∀ level, Matches tokens k 1 (right level) (right' level)) (left : Nat) :
    Matches tokens k 0 (operands right least left) (operands right' least left) := by
  induction left with
  | zero =>
    refine fun s hs => alike_get ?_
    split
    · exact matches_pure [] s hs
    · split
      · exact matches_pure [] s hs
      · exact matches_flaw _ s hs
  | succ left ih =>
    refine fun s hs => alike_get ?_
    split
    · exact matches_pure [] s hs
    · rename_i op hop
      obtain ⟨t, -, -, htaken⟩ := exists_before_of_operator? hop
      split
      · exact matches_pure [] s hs
      · have hmore := (hright op.level).bind fun t => ih.bind fun rest => matches_pure ((op, t) :: rest)
        exact (alike_advance htaken hs hmore).since (.refl s) (Nat.zero_le _)

theorem matches_binary {operand operand' : Parser Tree} (hoperand : Matches tokens k 1 operand operand')
    (levels : Nat) :
    ∀ least, Matches tokens k 1 (binary operand levels least) (binary operand' levels least) := by
  induction levels with
  | zero => exact fun _ => hoperand
  | succ levels ih =>
    exact fun least => hoperand.before fun first =>
      (matches_operands least (fun level => ih (level + 1)) (maxOperands - 1)).before fun rest => matches_pure _

/-! ### Forms -/

section Forms

variable {expression expression' operand operand' : Parser Tree}

theorem matches_conditional (hexpression : Matches tokens k 1 expression expression')
    (hoperand : Matches tokens k 1 operand operand') :
    Matches tokens k 1 (conditional expression operand) (conditional expression' operand') := by
  refine (matches_binary hoperand BinaryOp.levels 0).before fun condition => fun s hs => alike_get ?_
  split
  · rename_i hquestion
    obtain ⟨t, -, -, htaken⟩ := exists_before_of_continuation? (continues_iff.mp hquestion)
    have hcolon : Matches tokens k 1 (expect .colon) (expect .colon) := matches_expect .colon
    have hbranches := hexpression.bind fun yes => hcolon.bind fun _ => hexpression.bind fun no =>
      matches_pure (Tree.conditional condition yes no)
    exact (alike_advance htaken hs hbranches).since (.refl s) (Nat.zero_le _)
  · exact matches_pure condition s hs

theorem matches_field (hexpression : Matches tokens k 1 expression expression') :
    Matches tokens k 1 (field expression) (field expression') := by
  refine matches_next.before fun t => ?_
  have hvalue : ∀ key : String, Matches tokens k 0 (do expect .colon; let value ← expression; pure (key, value))
      (do expect .colon; let value ← expression'; pure (key, value)) := by
    intro key
    have htaken := (matches_expect .colon).bind fun _ => hexpression.before fun value => matches_pure (key, value)
    exact htaken.mono (Nat.zero_le _)
  split
  · exact hvalue _
  · exact hvalue _
  · exact matches_throw _

theorem matches_primary (hexpression : Matches tokens k 1 expression expression') :
    Matches tokens k 1 (primary expression) (primary expression') := by
  refine matches_next.before fun t => ?_
  split
  · exact matches_pure _
  · exact matches_pure _
  · exact matches_pure _
  · exact ((hexpression.mono (Nat.zero_le _)).inside .rightParen).mono (Nat.zero_le _)
  · exact ((hexpression.list .rightBracket).map _).mono (Nat.zero_le _)
  · exact (((matches_field hexpression).list .rightBrace).map _).mono (Nat.zero_le _)
  · exact matches_throw _

end Forms

/-! ### Depths -/

/-- Two depths whose parsers do the same at `k` forms or more. -/
structure Level.Alike (tokens : List Token) (k : Nat) (l l' : Level) : Prop where
  expression : Matches tokens k 1 l.expression l'.expression
  body : Matches tokens k 1 l.body l'.body
  unary : Matches tokens k 1 l.unary l'.unary
  postfixes : ∀ t s, s.Within tokens k → Parser.Alike (l.postfixes t) (l'.postfixes t) s (s.Climbed 0) s.Fell

variable {inner inner' : Level}

/-- A form that is entered, and those after it. -/
theorem alike_form {form form' : Parser α} {m : Mark} (h : inner.Alike tokens (k + 1) inner')
    (hs : s.Within tokens k) (hm : s.continues m = true) (hform : Matches tokens (k + 1) 0 form form')
    (build : α → Tree) :
    Alike (do enter; advance; let a ← form; inner.postfixes (build a))
      (do enter; advance; let a ← form'; inner'.postfixes (build a)) s (s.Climbed 0) s.Fell := by
  obtain ⟨t, -, -, htaken⟩ := exists_before_of_continuation? (continues_iff.mp hm)
  refine Alike.entering (fun hlt => alike_modify ?_) (.refl hs.nesting)
  have htook : s.entered.Took 1 s.entered.advance := took_one (congrArg Cursor.entered htaken)
  have hentered := hs.entered hlt
  have hfirst := (hform _ (htook.within hentered)).since htook (Nat.zero_le 1)
  refine (hfirst.mono (fun _ hu => hu) fun _ hu => (hu.fell hentered.nesting).outer).bind fun a u hu => ?_
  have hmore := h.postfixes (build a) u (hu.within hentered)
  exact hmore.mono (fun _ hv => (hu.climbed hv).outer) fun _ hv => (hu.fell hv).outer

theorem alike_postfixForms (h : inner.Alike tokens (k + 1) inner') (t : Tree) (hs : s.Within tokens k) :
    Alike (postfixForms inner t) (postfixForms inner' t) s (s.Climbed 0) s.Fell := by
  have hexpression := h.expression.mono (Nat.zero_le 1)
  refine alike_get ?_
  split
  · rename_i hdot
    exact alike_form h hs hdot (matches_expectName.mono (Nat.zero_le _)) _
  · split
    · rename_i hbracket
      exact alike_form h hs hbracket ((hexpression.inside .rightBracket).mono (Nat.zero_le _)) _
    · split
      · rename_i hparen
        exact alike_form h hs hparen ((h.expression.list .rightParen).mono (Nat.zero_le _)) _
      · exact alike_pure t (.refl hs.nesting)

/-- A primary with the forms after it. -/
theorem matches_bare {expression expression' : Parser Tree} {postfixes postfixes' : Tree → Parser Tree}
    (hexpression : Matches tokens k 1 expression expression')
    (hpostfixes : ∀ t s, s.Within tokens k → Alike (postfixes t) (postfixes' t) s (s.Climbed 0) s.Fell) :
    Matches tokens k 1 (keepingNesting (primary expression >>= postfixes))
      (keepingNesting (primary expression' >>= postfixes')) := by
  refine fun s hs => Alike.keepingNesting ?_
  have hprimary := matches_primary hexpression s hs
  refine (hprimary.mono (fun _ hu => hu) fun _ hu => hu.fell hs.nesting).bind fun t u hu => ?_
  exact (hpostfixes t u (hu.within hs)).mono (fun _ hv => hu.climbed hv) fun _ hv => hu.fell hv

/-- An operator in front of what is read one form deeper. -/
theorem alike_sign {deeper deeper' : Parser Tree} {m : Mark} (hs : s.Within tokens k) (hm : s.isAt m = true)
    (hdeeper : Matches tokens k 1 deeper deeper') (build : Tree → Tree) :
    Alike (do advance; let t ← deeper; pure (build t)) (do advance; let t ← deeper'; pure (build t)) s
      (s.Took 1) s.Failed := by
  obtain ⟨t, -, htaken⟩ := exists_before_of_mark? (eq_of_beq hm)
  exact (alike_advance htaken hs (hdeeper.bind fun t => matches_pure (build t))).since (.refl s) (by decide)

theorem matches_unaryForms {expression expression' deeper deeper' : Parser Tree}
    {postfixes postfixes' : Tree → Parser Tree} (hexpression : Matches tokens k 1 expression expression')
    (hdeeper : Matches tokens k 1 deeper deeper')
    (hpostfixes : ∀ t s, s.Within tokens k → Alike (postfixes t) (postfixes' t) s (s.Climbed 0) s.Fell) :
    Matches tokens k 1 (unaryForms expression deeper postfixes) (unaryForms expression' deeper' postfixes') := by
  refine fun s hs => alike_get ?_
  split
  · exact alike_sign hs ‹_› hdeeper _
  · split
    · exact alike_sign hs ‹_› hdeeper _
    · exact matches_bare hexpression hpostfixes s hs

/-- Depths around parsers that do the same do the same, one form further out. -/
theorem Level.Alike.around (h : inner.Alike tokens (k + 1) inner') : inner.around.Alike tokens k inner'.around := by
  have hpostfixes : ∀ t s, s.Within tokens k →
      Parser.Alike (postfixForms inner t) (postfixForms inner' t) s (s.Climbed 0) s.Fell :=
    fun t _ hs => alike_postfixForms h t hs
  have hunary := matches_unaryForms h.body.nested h.unary.nested hpostfixes
  exact ⟨h.body.nested, matches_conditional h.body.nested hunary, hunary, hpostfixes⟩

theorem alike_beyond (tokens : List Token) (k : Nat) : Level.beyond.Alike tokens k .beyond where
  expression := matches_flaw _
  body := matches_flaw _
  unary := matches_flaw _
  postfixes _ _ hs := alike_flaw _ (.refl hs.nesting)

/-- At every depth the parsers take tokens and come back. -/
theorem alike_level (tokens : List Token) (n : Nat) : ∀ k, (level n).Alike tokens k (level n) := by
  induction n with
  | zero => exact alike_beyond tokens
  | succ n ih => exact fun k => (ih (k + 1)).around

/-! ### Statements -/

theorem matches_expression (tokens : List Token) (k : Nat) : Matches tokens k 1 expression expression :=
  (alike_level tokens (maxNesting + 1) k).expression

theorem matches_statement (tokens : List Token) (k : Nat) : Matches tokens k 1 statement statement := by
  have hexpression := matches_expression tokens k
  refine fun s hs => alike_get ?_
  split
  · rename_i word hword
    obtain ⟨t, -, htaken⟩ := exists_before_of_name? hword
    split
    · have hdefine := matches_expectName.bind fun name => (matches_expect .assign).bind fun _ =>
        hexpression.before fun value => matches_pure (Statement.define name value)
      exact (alike_advance htaken hs hdefine).since (.refl s) (by decide)
    · split
      · exact (alike_advance htaken hs (hexpression.map Statement.answer)).since (.refl s) (by decide)
      · exact hexpression.map Statement.yield s hs
  · exact hexpression.map Statement.yield s hs

/-- One round of the loop over statements, with `more` for the rounds after it. -/
def statementsRound (more : Parser (List Statement)) : Parser (List Statement) := do
  modify fun s => { s with rest := s.rest.dropWhile isSeparator }
  if (← get).rest.isEmpty then pure []
  else
    let first ← statement
    let s ← get
    if !s.rest.isEmpty && !s.isAt .semicolon && !s.atLineBreak then flaw .unexpectedToken
    let rest ← more
    pure (first :: rest)

theorem statements_succ (rounds : Nat) : statements (rounds + 1) = statementsRound (statements rounds) := rfl

theorem took_separators (s : Cursor) : s.Took 0 { s with rest := s.rest.dropWhile isSeparator } := by
  refine ⟨s.rest.takeWhile isSeparator, Nat.zero_le _, ?_⟩
  rw [before, List.takeWhile_append_dropWhile]

/-- A statement takes a token, so what follows it has fewer left. -/
theorem roundsAlike_statements (tokens : List Token) (k : Nat) :
    RoundsAlike tokens k statementsRound statementsRound := by
  intro more more' s hs hmore
  have hskip := took_separators s
  refine alike_modify (alike_get ?_)
  split
  · exact alike_pure [] hskip
  · have hfirst := (matches_statement tokens k _ (hskip.within hs)).since (l := 1) hskip (Nat.le_refl _)
    refine hfirst.bind fun first u hu => alike_get ?_
    have hrest := (hmore u hu (hu.within hs)).then (hu.within hs) fun rest => matches_pure (first :: rest)
    split
    · exact alike_flaw_bind _ (hu.failed (.refl u))
    · exact hrest.since hu (Nat.zero_le _)

end Parser

end PoolScaling.Expr
