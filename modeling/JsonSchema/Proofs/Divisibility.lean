import JsonSchema.Proofs.SingleRule

/-!
# Whole divisors

A schema of one whole divisor accepts the multiples of the divisor, whatever form the numbers have,
unless the divisor has to be rounded to divide a double. A double may then be a multiple of it
although the same integer is none.

* `Options.multipleOf_divides`: the values that `multipleOf` lets through;
* `Options.multipleOf_rounds`: a divisor that is rounded.
-/

namespace JsonSchema

namespace Options

/-- **A whole divisor divides exactly**, whatever form the numbers have, if it is a double. Exact
integers are always divided exactly. But a double is divided by the double nearest to the divisor,
which is another number if the divisor has more than 53 significant bits. -/
theorem multipleOf_divides {o : Options} (ho : o.keywords.lookup "multipleOf" = none) {d : Number}
    {n : Nat} (hpos : 0 < n) (hlt : n < UInt64.size)
    (hd : d = .integer n ∨ ∃ x, d = .double x ∧ x.Fits ∧ d.value = n) :
    ∃ w, o.build (.object [("multipleOf", .number d)]) = .ok w ∧ ∀ a : Number,
      ((∃ m, a = .integer m) ∨ (∃ x, d = .double x) ∨ Significant n →
        (w.isValid (.number a) = true ↔ ∃ k : Int, a.value = k * n)) ∧
      ∀ x, a = .double x → (w.isValid (.number a) = true ↔ (∃ j : Int, a.value = j) ∧
        ∃ k : Int, a.value = k * (Number.double (.ofInt n)).value) := by
  have hwhole := Divisor.ofNumber?_eq_whole hpos hlt (hd.imp id fun ⟨x, hx, _, hv⟩ => ⟨x, hx, hv⟩)
  obtain ⟨w, hw, honly⟩ := build_multipleOf ho hwhole
  have hvalid (a : Number) : w.isValid (.number a) = true ↔ Divisor.wholeDivides n a = true := by
    rw [honly.isValid_iff, Rule.fault?, Divisor.divides, Rule.demand]
    split <;> simp_all
  refine ⟨w, hw, fun a => ⟨fun ha => ?_, ?_⟩⟩
  · rw [hvalid]
    rcases ha with ⟨m, rfl⟩ | ⟨x, rfl⟩ | hn
    · exact Divisor.wholeDivides_integer m
    · have hdouble : Number.double x ≠ .integer n := by simp
      obtain ⟨_, ⟨⟩, hfits, hvalue⟩ := hd.resolve_left hdouble
      exact Divisor.wholeDivides_of_significant (hfits.significant hvalue) a
    · exact Divisor.wholeDivides_of_significant hn a
  · rintro x rfl
    rw [hvalid, Divisor.wholeDivides_double]

/-- The divisor `2^63`, written as a double, divides the least integer of 64 bits, and three times
itself as a double. -/
theorem multipleOf_divides_least :
    (Double.ofInt 9223372036854775808).Fits ∧
      (Number.double (.ofInt 9223372036854775808)).value = (9223372036854775808 : Nat) ∧
      ∃ w, build {} (.object [("multipleOf", .number (.double (.ofInt 9223372036854775808)))]) =
          .ok w ∧
        w.isValid (.number (.integer (-9223372036854775808))) = true ∧
        w.isValid (.number (.double (.ofInt 27670116110564327424))) = true ∧
        w.isValid (.number (.integer 9223372036854775807)) = false := by
  have hn : Significant 9223372036854775808 := ⟨1, 63, by decide, by decide⟩
  have hthree : Significant 27670116110564327424 := ⟨3, 63, by decide, by decide⟩
  have hfits : (Double.ofInt 9223372036854775808).Fits := by
    have h : (Double.ofInt (9223372036854775808 : Nat)).Fits := by
      rw [Double.Fits, Double.ofInt_units hn]
      exact hn.mul_one
    exact h
  have hvalue : (Number.double (.ofInt 9223372036854775808)).value = (9223372036854775808 : Nat) :=
    Double.value_ofInt hn
  obtain ⟨w, hw, h⟩ := multipleOf_divides (o := {}) rfl (n := 9223372036854775808) (by decide)
    (by decide) (.inr ⟨_, rfl, hfits, hvalue⟩)
  refine ⟨hfits, hvalue, w, hw, ?_, ?_, ?_⟩
  · refine ((h _).1 (.inl ⟨_, rfl⟩)).2 ⟨-1, ?_⟩
    rw [Number.value_integer]
    norm_num
  · refine ((h _).1 (.inr (.inr hn))).2 ⟨3, (Double.value_ofInt hthree).trans ?_⟩
    norm_num
  · rw [← Bool.not_eq_true, (h _).1 (.inl ⟨_, rfl⟩), Number.value_integer]
    rintro ⟨k, hk⟩
    have hk : (9223372036854775807 : Int) = k * 9223372036854775808 := by exact_mod_cast hk
    omega

/-- A divisor with 54 significant bits is rounded: it divides a double that is no multiple of it,
although it does not divide the same integer. -/
theorem multipleOf_rounds :
    ∃ w, build {} (.object [("multipleOf", .number (.integer 9007199254740993))]) = .ok w ∧
      w.isValid (.number (.double (.ofInt 9007199254740992))) = true ∧
      w.isValid (.number (.integer 9007199254740992)) = false ∧
      (Number.double (.ofInt 9007199254740992)).value = 9007199254740992 ∧
      ¬∃ k : Int, (Number.double (.ofInt 9007199254740992)).value = k * 9007199254740993 := by
  have hrun :
      (build {} (.object [("multipleOf", .number (.integer 9007199254740993))])).toOption.map
        (fun w => (w.isValid (.number (.double (.ofInt 9007199254740992))),
          w.isValid (.number (.integer 9007199254740992)))) = some (true, false) := by
    decide +kernel
  obtain ⟨w, hw, h⟩ := build_of_run hrun
  obtain ⟨hdouble, hinteger⟩ := Prod.mk.inj h
  have hvalue : (Number.double (.ofInt 9007199254740992)).value = 9007199254740992 := by
    have h := Double.value_ofInt (n := 9007199254740992) ⟨1, 53, by decide, by decide⟩
    exact_mod_cast h
  refine ⟨w, hw, hdouble, hinteger, hvalue, ?_⟩
  rintro ⟨k, hk⟩
  have hk : (9007199254740992 : Int) = k * 9007199254740993 := by
    rw [hvalue] at hk
    exact_mod_cast hk
  omega

end Options

end JsonSchema
