import Mathlib.Order.WellFounded

namespace Causal

variable {ι : Type*} {β : ι → Type*} {before : ι → ι → Prop} {P : ι → Prop} {F : (∀ i, β i) → ∀ i, β i}

/-- The equations of some indices: the value of one depends on those of them that are before it. -/
def CausalOn (before : ι → ι → Prop) (P : ι → Prop) (F : (∀ i, β i) → ∀ i, β i) : Prop :=
  ∀ x y i, P i → (∀ j, P j → before j i → x j = y j) → F x i = F y i

theorem CausalOn.unique (hF : CausalOn before P F) (hwf : WellFounded before) {x y : ∀ i, β i}
    (hx : ∀ i, P i → x i = F x i) (hy : ∀ i, P i → y i = F y i) {i : ι} (hi : P i) : x i = y i := by
  induction i using hwf.induction with
  | _ i ih =>
    rw [hx i hi, hy i hi]
    exact hF x y i hi fun j hj hbefore => ih j hbefore hj

end Causal
