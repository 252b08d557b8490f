import Mathlib.Algebra.Order.Ring.Int

/-! Packing and unpacking doubles.

A double is its sign, exponent and mantissa fields; `ofFields` says what they
denote. A finite result of arithmetic is packed into these fields again, and
`unpack_pack_finite` says what comes back: infinity beyond the greatest
exponent, and otherwise the same mantissa and exponent, the exponent of a
mantissa without its leading bit being the least one. What is denoted determines
the fields, and these the bits, so a double is what it denotes (`eq_of_unpack`). -/
namespace PoolScaling.Number
open Float.Model Float.Model.UnpackedFloat

/-! ### Fields -/

theorem toNat_one_append {w : Nat} (v : BitVec w) : (1#1 ++ v).toNat = 2 ^ w + v.toNat := by
  rw [BitVec.toNat_append, ← Nat.shiftLeft_add_eq_or_of_lt v.isLt]
  simp [Nat.shiftLeft_eq]

/-- What the fields of a double denote. -/
def ofFields (s : Sign) (e : BitVec 11) (m : BitVec 52) : UnpackedFloat :=
  if e = -1#11 then if m = 0#52 then .infinity s else .notANumber
  else if e = 0#11 then
    if h : m = 0#52 then .zero s
    else .finite s m.toNat (-1074) (Nat.pos_of_ne_zero fun h0 => h (BitVec.eq_of_toNat_eq h0))
  else .finite s (2 ^ 52 + m.toNat) (e.toNat - 1075) (by omega)

theorem unpack_eq_ofFields (b : BitVec Format.binary64.numBits) :
    UnpackedFloat.unpack Format.binary64 b =
      ofFields (Sign.ofBitVec (unpackSign b)) (unpackExponent b) (unpackMantissa b) := by
  unfold UnpackedFloat.unpack ofFields
  by_cases htop : @unpackExponent Format.binary64 b = -1#11
  · exact (if_pos htop).trans (if_pos htop).symm
  · refine (if_neg htop).trans (Eq.trans ?_ (if_neg htop).symm)
    by_cases hzero : @unpackExponent Format.binary64 b = 0#11
    · refine (if_pos hzero).trans (Eq.trans ?_ (if_pos hzero).symm)
      rw [hzero]
      rfl
    · refine (if_neg hzero).trans (Eq.trans ?_ (if_neg hzero).symm)
      rw [UnpackedFloat.finite.injEq]
      exact ⟨rfl, toNat_one_append (unpackMantissa b), rfl⟩

/-- The five kinds of fields. -/
theorem ofFields_cases (s : Sign) (e : BitVec 11) (m : BitVec 52) :
    (e = -1#11 ∧ m = 0#52 ∧ ofFields s e m = .infinity s) ∨
    (e = -1#11 ∧ m ≠ 0#52 ∧ ofFields s e m = .notANumber) ∨
    (e = 0#11 ∧ m = 0#52 ∧ ofFields s e m = .zero s) ∨
    (∃ h, e = 0#11 ∧ ofFields s e m = .finite s m.toNat (-1074) h) ∨
    ∃ h, 0 < e.toNat ∧ e.toNat < 2047 ∧ ofFields s e m = .finite s (2 ^ 52 + m.toNat) (e.toNat - 1075) h := by
  by_cases htop : e = -1#11
  · by_cases hm : m = 0#52
    · exact .inl ⟨htop, hm, by rw [ofFields, if_pos htop, if_pos hm]⟩
    · exact .inr (.inl ⟨htop, hm, by rw [ofFields, if_pos htop, if_neg hm]⟩)
  · by_cases hleast : e = 0#11
    · by_cases hm : m = 0#52
      · exact .inr (.inr (.inl ⟨hleast, hm, by rw [ofFields, if_neg htop, if_pos hleast, dif_pos hm]⟩))
      · have hpos : 0 < m.toNat := Nat.pos_of_ne_zero fun h0 => hm (BitVec.eq_of_toNat_eq h0)
        exact .inr (.inr (.inr (.inl ⟨hpos, hleast, by rw [ofFields, if_neg htop, if_pos hleast, dif_neg hm]⟩)))
    · have hpos : e.toNat ≠ 0 := fun h0 => hleast (BitVec.eq_of_toNat_eq h0)
      have hlt : e.toNat ≠ 2047 := fun htoNat => htop (BitVec.eq_of_toNat_eq htoNat)
      have hbound := e.isLt
      refine .inr (.inr (.inr (.inr ⟨by omega, by omega, by omega, ?_⟩)))
      rw [ofFields, if_neg htop, if_neg hleast]

/-! ### Bits -/

theorem toNat_unpackSign (b : BitVec Format.binary64.numBits) : (unpackSign b).toNat = b.toNat / 2 ^ 63 % 2 := by
  show (b.extractLsb 63 63).toNat = _
  rw [BitVec.extractLsb_toNat, Nat.shiftRight_eq_div_pow]

theorem toNat_unpackExponent (b : BitVec Format.binary64.numBits) :
    (unpackExponent b).toNat = b.toNat / 2 ^ 52 % 2 ^ 11 := by
  show (b.extractLsb 62 52).toNat = _
  rw [BitVec.extractLsb_toNat, Nat.shiftRight_eq_div_pow]

theorem toNat_unpackMantissa (b : BitVec Format.binary64.numBits) :
    (unpackMantissa b).toNat = b.toNat % 2 ^ 52 := by
  show (b.extractLsb 51 0).toNat = _
  rw [BitVec.extractLsb_toNat, Nat.shiftRight_zero]

theorem ofBitVec_unpackSign (s : Sign) (e : BitVec 11) (m : BitVec 52) :
    Sign.ofBitVec (unpackSign (packComponents Format.binary64 s e m)) = s := by
  have hbits : (packComponents Format.binary64 s e m).toNat =
      (s.toBitVec.toNat * 2 ^ 11 + e.toNat) * 2 ^ 52 + m.toNat := by
    show (s.toBitVec ++ e ++ m).toNat = _
    rw [BitVec.toNat_append, BitVec.toNat_append, ← Nat.shiftLeft_add_eq_or_of_lt m.isLt,
      ← Nat.shiftLeft_add_eq_or_of_lt e.isLt, Nat.shiftLeft_eq, Nat.shiftLeft_eq]
  have htop : unpackSign (packComponents Format.binary64 s e m) = s.toBitVec := by
    have := e.isLt
    have := m.isLt
    have := s.toBitVec.isLt
    apply BitVec.eq_of_toNat_eq
    rw [toNat_unpackSign, hbits]
    omega
  rw [htop]
  cases s <;> rfl

theorem unpack_packComponents (s : Sign) (e : BitVec 11) (m : BitVec 52) :
    UnpackedFloat.unpack Format.binary64 (packComponents Format.binary64 s e m) = ofFields s e m := by
  rw [unpack_eq_ofFields, ofBitVec_unpackSign, unpackExponent_packComponents, unpackMantissa_packComponents]

/-! ### Finite doubles -/

/-- A mantissa and an exponent as finite doubles have them: 53 bits, or fewer at the
least exponent. -/
structure Fits (m : Nat) (e : Int) : Prop where
  lt : m < 2 ^ 53
  least : -1074 ≤ e
  greatest : e ≤ 971
  full : 2 ^ 52 ≤ m ∨ e = -1074

theorem ofFields_fits {s s' : Sign} {e : BitVec 11} {m : BitVec 52} {m' : Nat} {e' : Int}
    {h' : 0 < m'} (h : ofFields s e m = .finite s' m' e' h') : Fits m' e' := by
  have hm : m.toNat < 2 ^ 52 := m.isLt
  rcases ofFields_cases s e m with ⟨-, -, hu⟩ | ⟨-, -, hu⟩ | ⟨-, -, hu⟩ | ⟨_, -, hu⟩ | ⟨_, _, _, hu⟩ <;>
    cases hu.symm.trans h
  · exact ⟨by omega, by decide, by decide, .inr rfl⟩
  · exact ⟨by omega, by omega, by omega, .inl (by omega)⟩

theorem unpack_fits {x : Float.Model} {s : Sign} {m : Nat} {e : Int} {hm : 0 < m}
    (h : x.unpack = .finite s m e hm) : Fits m e := by
  have h : UnpackedFloat.unpack Format.binary64 x.toBits.toBitVec = .finite s m e hm := h
  rw [unpack_eq_ofFields] at h
  exact ofFields_fits h

theorem toNat_ofNat_exponent {e : Int} (hl : -1074 ≤ e) (hg : e ≤ 971) :
    (BitVec.ofNat 11 (e + 1075).toNat).toNat = (e + 1075).toNat := by
  rw [BitVec.toNat_ofNat, Nat.mod_eq_of_lt (by omega)]

/-- A mantissa of 53 bits comes back as it was. -/
theorem ofFields_full {s : Sign} {m : Nat} {e : Int} (hm : 0 < m) (h : Fits m e) (hfull : 2 ^ 52 ≤ m) :
    ofFields s (BitVec.ofNat 11 (e + 1075).toNat) (BitVec.ofNat 52 m) = .finite s m e hm := by
  obtain ⟨hlt, hl, hg, _⟩ := h
  have hexp := toNat_ofNat_exponent hl hg
  have htop : BitVec.ofNat 11 (e + 1075).toNat ≠ -1#11 := by
    intro h
    have h := congrArg BitVec.toNat h
    rw [hexp, show (-1#11).toNat = 2047 from rfl] at h
    omega
  have hzero : BitVec.ofNat 11 (e + 1075).toNat ≠ 0#11 := by
    intro h
    have h := congrArg BitVec.toNat h
    rw [hexp, show (0#11).toNat = 0 from rfl] at h
    omega
  have hmant : 2 ^ 52 + (BitVec.ofNat 52 m).toNat = m := by
    rw [BitVec.toNat_ofNat]
    omega
  rw [ofFields, if_neg htop, if_neg hzero, UnpackedFloat.finite.injEq]
  exact ⟨rfl, hmant, by omega⟩

/-- A shorter mantissa comes back at the least exponent. -/
theorem ofFields_short {s : Sign} {m : Nat} (hm : 0 < m) (h : m < 2 ^ 52) :
    ofFields s 0#11 (BitVec.ofNat 52 m) = .finite s m (-1074) hm := by
  have hmant : (BitVec.ofNat 52 m).toNat = m := by
    rw [BitVec.toNat_ofNat, Nat.mod_eq_of_lt h]
  have hne : BitVec.ofNat 52 m ≠ 0#52 := by
    intro h
    have h := congrArg BitVec.toNat h
    rw [hmant, show (0#52).toNat = 0 from rfl] at h
    omega
  rw [ofFields, if_neg (by decide), if_pos rfl, dif_neg hne, UnpackedFloat.finite.injEq]
  exact ⟨rfl, hmant, rfl⟩

/-- The fields of a finite result. -/
theorem pack_finite {s : Sign} {m : Nat} {e : Int} (hm : 0 < m) :
    UnpackedFloat.pack Format.binary64 (.finite s m e hm) =
      if 2 ^ 11 ≤ (e + 1075).toNat + 1 then packComponents Format.binary64 s (-1#11) 0#52
      else if m.log2 + 1 = 53 then
        packComponents Format.binary64 s (BitVec.ofNat 11 (e + 1075).toNat) (BitVec.ofNat 52 m)
      else packComponents Format.binary64 s 0#11 (BitVec.ofNat 52 m) := by
  have hbias : e + (Format.binary64.exponentBias : Int) + Format.binary64.mantissaBitsWithoutImplicit = e + 1075 := by
    rw [add_assoc]
    rfl
  rw [← hbias]
  rfl

theorem unpack_pack_finite {s : Sign} {m : Nat} {e : Int} {hm : 0 < m} (hlt : m < 2 ^ 53)
    (hl : -1074 ≤ e) :
    (Float.Model.pack (.finite s m e hm)).unpack =
      if 971 < e then .infinity s
      else if 2 ^ 52 ≤ m then .finite s m e hm
      else .finite s m (-1074) hm := by
  show UnpackedFloat.unpack Format.binary64 (UnpackedFloat.pack Format.binary64 (.finite s m e hm)) = _
  rw [pack_finite]
  by_cases htop : 971 < e
  · rw [if_pos (by omega), if_pos htop]
    exact unpack_packComponents s (-1#11) 0#52
  · rw [if_neg (by omega), if_neg htop]
    by_cases hfull : 2 ^ 52 ≤ m
    · have hlog : m.log2 + 1 = 53 := by
        rw [(Nat.log2_eq_iff hm.ne').mpr ⟨hfull, hlt⟩]
      rw [if_pos hlog, if_pos hfull, unpack_packComponents]
      exact ofFields_full hm ⟨hlt, hl, by omega, .inl hfull⟩ hfull
    · have hlog : m.log2 < 52 := (Nat.log2_lt hm.ne').mpr (by omega)
      rw [if_neg (by omega), if_neg hfull, unpack_packComponents]
      exact ofFields_short hm (by omega)

/-- What fits comes back as it was. -/
theorem unpack_pack_of_fits {s : Sign} {m : Nat} {e : Int} {hm : 0 < m} (h : Fits m e) :
    (Float.Model.pack (.finite s m e hm)).unpack = .finite s m e hm := by
  obtain ⟨hlt, hl, hg, hfull⟩ := h
  rw [unpack_pack_finite hlt hl, if_neg (by omega)]
  by_cases h52 : 2 ^ 52 ≤ m
  · rw [if_pos h52]
  · rw [if_neg h52, hfull.resolve_left h52]

theorem unpack_pack_zero (s : Sign) : (Float.Model.pack (.zero s)).unpack = .zero s :=
  unpack_packComponents s 0#11 0#52

theorem unpack_pack_infinity (s : Sign) : (Float.Model.pack (.infinity s)).unpack = .infinity s :=
  unpack_packComponents s (-1#11) 0#52

/-! ### Doubles that denote the same -/

/-- The fields of what is a number, as natural numbers. -/
def fieldsOf : UnpackedFloat → Sign × Nat × Nat
  | .notANumber => (.positive, 2047, 1)
  | .infinity s => (s, 2047, 0)
  | .zero s => (s, 0, 0)
  | .finite s m e _ => if m < 2 ^ 52 then (s, 0, m) else (s, (e + 1075).toNat, m - 2 ^ 52)

/-- Except for the NaNs, the fields can be told from what they denote. -/
theorem fieldsOf_ofFields (s : Sign) (e : BitVec 11) (m : BitVec 52) :
    (e = -1#11 ∧ m ≠ 0#52 ∧ ofFields s e m = .notANumber) ∨
      ofFields s e m ≠ .notANumber ∧ fieldsOf (ofFields s e m) = (s, e.toNat, m.toNat) := by
  have hm : m.toNat < 2 ^ 52 := m.isLt
  rcases ofFields_cases s e m with ⟨rfl, rfl, hu⟩ | hnan | ⟨rfl, rfl, hu⟩ | ⟨_, rfl, hu⟩ | ⟨_, hpos, _, hu⟩
  · exact .inr ⟨by rw [hu]; nofun, by rw [hu]; rfl⟩
  · exact .inl hnan
  · exact .inr ⟨by rw [hu]; nofun, by rw [hu]; rfl⟩
  · exact .inr ⟨by rw [hu]; nofun, (congrArg fieldsOf hu).trans (if_pos hm)⟩
  · have hnormal : ¬ 2 ^ 52 + m.toNat < 2 ^ 52 := by omega
    have hexponent : ((e.toNat : Int) - 1075 + 1075).toNat = e.toNat := by omega
    refine .inr ⟨by rw [hu]; nofun, (congrArg fieldsOf hu).trans ((if_neg hnormal).trans ?_)⟩
    rw [hexponent, Nat.add_sub_cancel_left]

theorem ofBitVec_inj {b b' : BitVec 1} (h : Sign.ofBitVec b = Sign.ofBitVec b') : b = b' := by
  have hbit : ∀ b : BitVec 1, b = 0#1 ∨ b = 1#1 := by decide
  obtain rfl | rfl := hbit b <;> obtain rfl | rfl := hbit b'
  · rfl
  · cases h
  · cases h
  · rfl

theorem eq_of_fields {b b' : BitVec Format.binary64.numBits} (hs : unpackSign b = unpackSign b')
    (he : unpackExponent b = unpackExponent b') (hm : unpackMantissa b = unpackMantissa b') : b = b' := by
  have hs := congrArg BitVec.toNat hs
  have he := congrArg BitVec.toNat he
  have hm := congrArg BitVec.toNat hm
  rw [toNat_unpackSign, toNat_unpackSign] at hs
  rw [toNat_unpackExponent, toNat_unpackExponent] at he
  rw [toNat_unpackMantissa, toNat_unpackMantissa] at hm
  have hb : b.toNat < 2 ^ 64 := b.isLt
  have hb' : b'.toNat < 2 ^ 64 := b'.isLt
  exact BitVec.eq_of_toNat_eq (by omega)

theorem eq_of_unpack_bits {b b' : BitVec Format.binary64.numBits} (hb : Format.binary64.Valid b)
    (hb' : Format.binary64.Valid b')
    (h : UnpackedFloat.unpack Format.binary64 b = UnpackedFloat.unpack Format.binary64 b') : b = b' := by
  rw [unpack_eq_ofFields, unpack_eq_ofFields] at h
  rcases fieldsOf_ofFields (Sign.ofBitVec (unpackSign b)) (unpackExponent b) (unpackMantissa b) with
    ⟨htop, hne, hnan⟩ | ⟨hnumber, hfields⟩ <;>
  rcases fieldsOf_ofFields (Sign.ofBitVec (unpackSign b')) (unpackExponent b') (unpackMantissa b') with
    ⟨htop', hne', hnan'⟩ | ⟨hnumber', hfields'⟩
  · rw [hb.eq_packedNaN htop hne, hb'.eq_packedNaN htop' hne']
  · exact absurd (h.symm.trans hnan) hnumber'
  · exact absurd (h.trans hnan') hnumber
  · rw [← h, hfields, Prod.mk.injEq, Prod.mk.injEq] at hfields'
    obtain ⟨hs, he, hm⟩ := hfields'
    exact eq_of_fields (ofBitVec_inj hs) (BitVec.eq_of_toNat_eq he) (BitVec.eq_of_toNat_eq hm)

/-- Doubles that denote the same are the same. -/
theorem eq_of_unpack {x y : Float} (h : x.toModel.unpack = y.toModel.unpack) : x = y := by
  have hbits : x.toModel.toBits.toBitVec = y.toModel.toBits.toBitVec :=
    eq_of_unpack_bits x.toModel.valid y.toModel.valid h
  obtain ⟨⟨⟨_⟩, _⟩⟩ := x
  obtain ⟨⟨⟨_⟩, _⟩⟩ := y
  cases hbits
  rfl

end PoolScaling.Number
