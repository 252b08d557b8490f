import PoolScaling.Proofs.Number.Shortest
import PoolScaling.Toml.Printer
import PoolScaling.Toml.Reader

/-! Numbers, read back.

A finite double is written as digits with a point among them (`Pointed`), and these
are read back as the double, negative zero included (`value?_writeNumber`). -/
namespace PoolScaling.Toml
open Number Text
open Float.Model.UnpackedFloat (Sign)

variable {c : Char} {ds whole fraction rest : List Char}

/-! ### Written numbers -/

/-- Digits on both sides of a point, those before it without a leading zero. -/
structure Pointed (whole fraction : List Char) : Prop where
  isDigit_whole : ∀ c ∈ whole, c.isDigit = true
  head : whole = ['0'] ∨ ∃ c ds, whole = c :: ds ∧ c ≠ '0'
  isDigit_fraction : ∀ c ∈ fraction, c.isDigit = true
  nonempty : fraction ≠ []

/-- What digits with a point stand for. -/
def pointedValue (whole fraction : List Char) : ℚ :=
  ofDigits (whole ++ fraction) * 10 ^ (-fraction.length : Int)

theorem toList_zeros (n : Nat) : (Layout.zeros n).toList = List.replicate n '0' := by
  rw [Layout.zeros, String.toList_ofList]

theorem isDigit_zero : ∀ c ∈ ['0'], c.isDigit = true := List.forall_mem_singleton.mpr rfl

theorem isDigit_of_mem_zeros {n : Nat} (h : c ∈ List.replicate n '0') : c.isDigit = true := by
  rw [List.eq_of_mem_replicate h]
  rfl

theorem exists_head {n : Nat} (h : 0 < n) : ∃ c ds, Nat.toDigits 10 n = c :: ds ∧ c ≠ '0' := by
  have hhead := head?_toDigits h
  cases hdigits : Nat.toDigits 10 n with
  | nil => exact absurd hdigits Nat.toDigits_ne_nil
  | cons c ds =>
    rw [hdigits] at hhead
    exact ⟨c, ds, rfl, fun hc => hhead (congrArg some hc)⟩

/-- A number without an exponent mark is digits with a point, and stands for what it is
written for. -/
theorem writePositional_eq {d : Nat} (hd : 0 < d) (k : Int) :
    ∃ whole fraction, Pointed whole fraction ∧
      (numberLayout.writePositional d k).toList = whole ++ '.' :: fraction ∧
      pointedValue whole fraction = d * 10 ^ k := by
  obtain ⟨c, ds, hdigits, hc⟩ := exists_head hd
  have hall : ∀ c ∈ Nat.toDigits 10 d, c.isDigit = true := fun c => isDigit_of_mem_toDigits
  have hvalue := ofDigits_toDigits d
  have hlength : (toString d).length = (Nat.toDigits 10 d).length := by
    rw [← String.length_toList]
    simp
  unfold Layout.writePositional
  dsimp only
  split
  · -- Zeros fill up the digits to a whole number.
    rename_i hwhole
    refine ⟨Nat.toDigits 10 d ++ List.replicate k.toNat '0', ['0'], ⟨?_, .inr ?_, isDigit_zero, by simp⟩, ?_, ?_⟩
    · intro c hc
      rcases List.mem_append.mp hc with hc | hc
      · exact hall c hc
      · exact isDigit_of_mem_zeros hc
    · exact ⟨c, _, by rw [hdigits, List.cons_append], hc⟩
    · simp [numberLayout, toList_zeros]
    · obtain ⟨k, rfl⟩ := Int.eq_ofNat_of_zero_le hwhole
      rw [pointedValue, ofDigits_append, ofDigits_append, hvalue, ofDigits_zeros]
      simp [ofDigits, appendDigit]
  split
  · -- The point stands among the digits.
    rename_i hneg hbefore
    generalize hplace : (((toString d).length : Int) + k).toNat = place
    have hsplit : (Nat.toDigits 10 d).take place ++ (Nat.toDigits 10 d).drop place = Nat.toDigits 10 d :=
      List.take_append_drop _ _
    refine ⟨(Nat.toDigits 10 d).take place, (Nat.toDigits 10 d).drop place, ⟨?_, .inr ?_, ?_, ?_⟩, ?_, ?_⟩
    · exact fun c hc => hall c (List.mem_of_mem_take hc)
    · obtain ⟨place', rfl⟩ : ∃ n, place = n + 1 := ⟨place - 1, by omega⟩
      exact ⟨c, ds.take place', by rw [hdigits, List.take_succ_cons], hc⟩
    · exact fun c hc => hall c (List.mem_of_mem_drop hc)
    · rw [Ne, List.drop_eq_nil_iff]
      omega
    · simp
    · rw [pointedValue, hsplit, hvalue, List.length_drop]
      congr 2
      omega
  · -- Zeros stand between the point and the digits.
    rename_i hneg hbefore
    generalize hgap : (-(((toString d).length : Int) + k)).toNat = gap
    refine ⟨['0'], List.replicate gap '0' ++ Nat.toDigits 10 d, ⟨isDigit_zero, .inl rfl, ?_, ?_⟩, ?_, ?_⟩
    · intro c hc
      rcases List.mem_append.mp hc with hc | hc
      · exact isDigit_of_mem_zeros hc
      · exact hall c hc
    · simp
    · simp [toList_zeros]
    · have hzeros : ['0'] ++ (List.replicate gap '0' ++ Nat.toDigits 10 d) =
          List.replicate (gap + 1) '0' ++ Nat.toDigits 10 d := by
        rw [← List.append_assoc]
        rfl
      rw [pointedValue, hzeros, ofDigits_append, ofDigits_zeros, hvalue, zero_mul, zero_add, List.length_append,
        List.length_replicate]
      congr 2
      omega

/-! ### Reading digits -/

theorem not_underscore (h : c.isDigit = true) : c ≠ '_' := by
  rintro rfl
  cases h

theorem moreDigits?_end (hdigit : c.isDigit = false) (hline : c ≠ '_') :
    moreDigits? Char.isDigit (c :: rest) = some ([], c :: rest) := by
  rw [moreDigits?]
  · simp [hdigit]
  all_goals intros; contradiction

theorem moreDigits?_append (h : ∀ c ∈ ds, c.isDigit = true) (hdigit : c.isDigit = false) (hline : c ≠ '_')
    (rest : List Char) :
    moreDigits? Char.isDigit (ds ++ c :: rest) = some (ds, c :: rest) := by
  induction ds with
  | nil => exact moreDigits?_end hdigit hline
  | cons d ds ih =>
    have hd := h d List.mem_cons_self
    rw [List.cons_append, moreDigits?]
    · simp [hd, ih fun c hc => h c (List.mem_cons_of_mem d hc)]
    · exact fun hline _ => not_underscore hd hline
    · exact fun _ _ hline _ => not_underscore hd hline

theorem digits?_append (h : ∀ c ∈ ds, c.isDigit = true) (hne : ds ≠ []) (hdigit : c.isDigit = false)
    (hline : c ≠ '_') : digits? Char.isDigit (ds ++ c :: rest) = some (ds, c :: rest) := by
  cases ds with
  | nil => exact absurd rfl hne
  | cons d ds =>
    have hmore := moreDigits?_append (fun c hc => h c (List.mem_cons_of_mem d hc)) hdigit hline rest
    simp [digits?, h d List.mem_cons_self, hmore]

/-! ### Reading numbers -/

/-- The decimal of digits with a point. -/
def pointed (whole fraction : List Char) : Decimal := ⟨whole, true, fraction, none⟩

namespace Pointed

variable (h : Pointed whole fraction)
include h

theorem exists_cons : ∃ c ds, whole = c :: ds ∧ c.isDigit = true ∧ (c = '0' → ds = []) := by
  rcases h.head with rfl | ⟨c, ds, rfl, hc⟩
  · exact ⟨'0', [], rfl, rfl, fun _ => rfl⟩
  · exact ⟨c, ds, rfl, h.isDigit_whole c List.mem_cons_self, fun hzero => absurd hzero hc⟩

theorem wholeDigits?_append : wholeDigits? (whole ++ '.' :: rest) = some (whole, '.' :: rest) := by
  rcases h.head with rfl | ⟨c, ds, rfl, hc⟩
  · rfl
  · rw [List.cons_append, wholeDigits?]
    · exact digits?_append h.isDigit_whole (by simp) rfl (by decide)
    · intro _ hzero
      cases hzero
      exact hc rfl

theorem decimal?_append (rest : List Char) :
    decimal? (whole ++ '.' :: (fraction ++ '\n' :: rest)) = some (pointed whole fraction, '\n' :: rest) := by
  have hfraction : digits? Char.isDigit (fraction ++ '\n' :: rest) = some (fraction, '\n' :: rest) :=
    digits?_append h.isDigit_fraction h.nonempty rfl (by decide)
  rw [decimal?, h.wholeDigits?_append]
  simp [hfraction, exponent?, pointed]

theorem unsigned?_append {negative : Bool} {d : Data} (hd : numberOf? negative (pointed whole fraction) = some d)
    (rest : List Char) :
    unsigned? negative (whole ++ '.' :: (fraction ++ '\n' :: rest)) = some (d, '\n' :: rest) := by
  have hdecimal := h.decimal?_append rest
  obtain ⟨c, ds, rfl, hc, -⟩ := h.exists_cons
  rw [List.cons_append] at hdecimal ⊢
  rw [unsigned?, hdecimal]
  · simp [hd]
  all_goals
    intro _ heq
    rw [(List.cons.inj heq).1] at hc
    cases hc

/-- A zero before the point marks no other base. -/
theorem number?_append {d : Data} (hd : numberOf? false (pointed whole fraction) = some d) (rest : List Char) :
    number? (whole ++ '.' :: (fraction ++ '\n' :: rest)) = some (d, '\n' :: rest) := by
  have hunsigned := h.unsigned?_append hd rest
  obtain ⟨c, ds, rfl, hc, hzero⟩ := h.exists_cons
  rw [List.cons_append] at hunsigned ⊢
  have hbase : ∀ {mark tail}, '.' ≠ mark →
      c :: (ds ++ '.' :: (fraction ++ '\n' :: rest)) ≠ '0' :: mark :: tail := by
    intro mark tail hmark heq
    obtain ⟨rfl, htail⟩ := List.cons.inj heq
    rw [hzero rfl] at htail
    exact hmark (List.cons.inj htail).1
  have hsign : ∀ {sign tail}, sign.isDigit = false →
      c :: (ds ++ '.' :: (fraction ++ '\n' :: rest)) ≠ sign :: tail := by
    intro sign tail hsign heq
    rw [(List.cons.inj heq).1, hsign] at hc
    cases hc
  rw [number?, hunsigned]
  · exact fun _ => hbase (by decide)
  · exact fun _ => hbase (by decide)
  · exact fun _ => hbase (by decide)
  · exact fun _ => hsign rfl
  · exact fun _ => hsign rfl

/-! ### Dates and times -/

/-- Where digits stand from the start, a digit or the point follows. -/
theorem drop_append {n : Nat} (hn : ∀ c ∈ (whole ++ '.' :: rest).take n, c.isDigit = true) :
    ∃ c cs, (whole ++ '.' :: rest).drop n = c :: cs ∧ (c.isDigit = true ∨ c = '.') := by
  have hwhole := h.isDigit_whole
  clear h
  induction whole generalizing n with
  | nil =>
    cases n with
    | zero => exact ⟨'.', rest, rfl, .inr rfl⟩
    | succ n => cases hn '.' List.mem_cons_self
  | cons c ds ih =>
    cases n with
    | zero => exact ⟨c, _, rfl, .inl (hwhole c List.mem_cons_self)⟩
    | succ n =>
      exact ih (fun d hd => hn d (List.mem_cons_of_mem c hd)) fun d hd => hwhole d (List.mem_cons_of_mem c hd)

theorem startsDate_append (rest : List Char) : startsDate (whole ++ '.' :: rest) = false := by
  by_contra hdate
  simp only [startsDate, Bool.not_eq_false, Bool.and_eq_true] at hdate
  obtain ⟨hyear, hdash⟩ := hdate
  obtain ⟨c, cs, hdrop, hc⟩ := h.drop_append (isDigit_of_digits? hyear)
  rw [← List.head?_drop, hdrop, List.head?_cons, beq_iff_eq, Option.some.injEq] at hdash
  rw [hdash] at hc
  exact absurd hc (by decide)

theorem startsTime_append (rest : List Char) : startsTime (whole ++ '.' :: rest) = false := by
  unfold startsTime
  split
  · rename_i cs htime
    unfold twoDigits? at htime
    split at htime
    · rename_i a b tail heq
      rw [Option.map_eq_some_iff] at htime
      obtain ⟨n, hdigits, hpair⟩ := htime
      have htwo : ∀ c ∈ (whole ++ '.' :: rest).take 2, c.isDigit = true := by
        rw [heq]
        exact isDigit_of_digits? (Option.isSome_of_eq_some hdigits)
      obtain ⟨c, cs, hdrop, hc⟩ := h.drop_append htwo
      rw [heq] at hdrop
      cases hpair
      cases hdrop
      exact absurd hc (by decide)
    · cases htime
  · rfl

end Pointed

/-! ### Values -/

theorem startsTime_minus (cs : List Char) : startsTime ('-' :: cs) = false := by
  cases cs <;> rfl

theorem value?_eq_number? (rounds depth : Nat) (hc : c.isDigit = true ∨ c = '-')
    (hdate : startsDate (c :: rest) = false) (htime : startsTime (c :: rest) = false) :
    value? (rounds + 1) depth (c :: rest) = number? (c :: rest) := by
  have hne : ∀ {a}, ¬ (a.isDigit = true ∨ a = '-') → c ≠ a := by
    rintro a ha rfl
    exact ha hc
  rw [value?]
  · simp [hdate, htime]
  all_goals
    intro _ heq
    exact hne (by decide) (List.cons.inj heq).1

theorem numberOf?_pointed {x : Float} {negative : Bool} (hx : x.isFinite = true)
    (h : (if negative then -(pointed whole fraction).toFloat else (pointed whole fraction).toFloat) = x) :
    numberOf? negative (pointed whole fraction) = some (.float x) := by
  obtain ⟨q, hq⟩ := isFinite_iff.mp hx
  have hinfinity : place infinity = some ⊤ := rfl
  have hrange : ¬ (x == infinity) = true := by
    rw [beq_iff hq hinfinity]
    exact WithBotTop.coe_ne_top q
  show (if (_ == infinity) = true then none else some (Data.float _)) = _
  rw [h, if_neg hrange]

/-- What is written for a double is read as the double. -/
theorem toFloat_pointed {x : Float} {s : Sign} {m : Nat} {e : Int} {hm : 0 < m}
    (hu : x.toModel.unpack = .finite s m e hm)
    (h : pointedValue whole fraction = (shortest .up m e).1 * 10 ^ (shortest .up m e).2) :
    (if Parts.isNegative s then -(pointed whole fraction).toFloat else (pointed whole fraction).toFloat) = x := by
  have hfits := unpack_fits hu
  have hcontains := contains_shortest hm hfits.lt .up (e := e)
  rw [← h] at hcontains
  have hplace : place (pointed whole fraction).toFloat = some ((m * 2 ^ e : ℚ) : Line) := by
    have hread : (pointed whole fraction).toFloat =
        ofDecimal (ofDigits (whole ++ fraction)) (-fraction.length) := by
      rw [← zero_sub (fraction.length : Int)]
      rfl
    rw [hread]
    exact place_ofDecimal_of_contains hm hfits hcontains
  have hpos := dyadic_pos (e := e) hm
  have hx : place x = some (dyadic (Parts.isNegative s) m e : Line) := by
    rw [place_eq, hu]
    rfl
  cases s with
  | positive => exact eq_of_place hplace hx hpos.ne'
  | negative => exact eq_of_place (place_neg hplace) hx (neg_ne_zero.mpr hpos.ne')

theorem writeNumber_eq {x : Float} (hx : x.isFinite = true) :
    ∃ whole fraction, Pointed whole fraction ∧
      (writeNumber x).toList = (if hasMinus x then ['-'] else []) ++ (whole ++ '.' :: fraction) ∧
      (if hasMinus x then -(pointed whole fraction).toFloat else (pointed whole fraction).toFloat) = x := by
  have hsign : ∀ negative, (if negative then "-" else "").toList = if negative = true then ['-'] else [] := by
    decide
  obtain ⟨q, hq⟩ := isFinite_iff.mp hx
  rcases unpack_of_place hq with ⟨s, hu, -⟩ | ⟨s, m, e, hm, hu, -, -⟩
  · have hparts : Parts.of x = .finite (Parts.isNegative s) 0 0 := by
      rw [Parts.of, hu]
    have hminus : hasMinus x = Parts.isNegative s := by
      rw [hasMinus, hparts]
    refine ⟨['0'], ['0'], ⟨isDigit_zero, .inl rfl, isDigit_zero, by simp⟩, ?_, ?_⟩
    · simp only [writeNumber, Layout.write, hparts, if_true, String.toList_append, hsign, hminus]
      simp [numberLayout]
    · have hzero : (pointed ['0'] ['0']).toFloat = 0.0 := rfl
      rw [hminus, hzero]
      refine eq_of_unpack ?_
      rw [hu]
      cases s with
      | positive => rfl
      | negative => rfl
  · have hparts : Parts.of x = .finite (Parts.isNegative s) m e := by
      rw [Parts.of, hu]
    have hminus : hasMinus x = Parts.isNegative s := by
      rw [hasMinus, hparts]
    have hcontains := contains_shortest hm (unpack_fits hu).lt .up (e := e)
    obtain ⟨whole, fraction, hpointed, htext, hvalue⟩ :=
      writePositional_eq (shortest_pos hm (unpack_fits hu).lt .up) (shortest .up m e).2
    refine ⟨whole, fraction, hpointed, ?_, ?_⟩
    · rw [hminus, ← htext]
      simp only [writeNumber, Layout.write, hparts, if_neg hm.ne', String.toList_append, hsign]
      rfl
    · rw [hminus]
      exact toFloat_pointed hu hvalue

theorem writeNumber_eq_cons {x : Float} (hx : x.isFinite = true) :
    ∃ c cs, (writeNumber x).toList = c :: cs ∧ (c.isDigit = true ∨ c = '-') := by
  obtain ⟨whole, fraction, hpointed, htext, -⟩ := writeNumber_eq hx
  obtain ⟨c, ds, rfl, hc, -⟩ := hpointed.exists_cons
  rw [htext]
  split
  · exact ⟨'-', _, rfl, .inr rfl⟩
  · exact ⟨c, _, rfl, .inl hc⟩

/-- **A written number reads back**, up to the line break that follows. -/
theorem value?_writeNumber {x : Float} (hx : x.isFinite = true) (rounds depth : Nat) (rest : List Char) :
    value? (rounds + 1) depth ((writeNumber x).toList ++ '\n' :: rest) = some (.float x, '\n' :: rest) := by
  obtain ⟨whole, fraction, hpointed, htext, hvalue⟩ := writeNumber_eq hx
  have hnumber := numberOf?_pointed hx hvalue
  obtain ⟨c, ds, hwhole, hc, -⟩ := hpointed.exists_cons
  cases hminus : hasMinus x with
  | true =>
    rw [hminus] at htext hnumber
    rw [htext, if_pos rfl, List.append_assoc, List.append_assoc, List.cons_append, List.cons_append,
      List.nil_append, value?_eq_number? rounds depth (.inr rfl) rfl (startsTime_minus _), number?]
    exact hpointed.unsigned?_append hnumber rest
  | false =>
    rw [hminus] at htext hnumber
    rw [htext, if_neg (by decide), List.nil_append, List.append_assoc, List.cons_append]
    have hread := hpointed.number?_append hnumber rest
    have hdate := hpointed.startsDate_append (fraction ++ '\n' :: rest)
    have htime := hpointed.startsTime_append (fraction ++ '\n' :: rest)
    rw [hwhole, List.cons_append] at hread hdate htime ⊢
    rw [value?_eq_number? rounds depth (.inl hc) hdate htime, hread]

end PoolScaling.Toml
