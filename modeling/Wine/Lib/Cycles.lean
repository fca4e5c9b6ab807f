import Mathlib.Data.Set.Card

/-!
# Calls without cycles

`calls a b` reads "the computation at `a` needs the one at `b`". Where finitely many computations are
needed, they all end exactly when none of them needs itself.
-/

namespace Wine.Lib
open Relation

variable {α : Type} {calls : α → α → Prop}

/-- Nothing that is needed from `a` on needs itself. -/
def Acyclic (calls : α → α → Prop) (a : α) : Prop :=
  ∀ b, ReflTransGen calls a b → ¬ TransGen calls b b

theorem Acyclic.of_calls {a b : α} (h : Acyclic calls a) (hb : calls a b) : Acyclic calls b :=
  fun _ hc => h _ (ReflTransGen.head hb hc)

theorem not_rel_of_acc {r : α → α → Prop} {a : α} (h : Acc r a) : ¬ r a a := by
  induction h with
  | intro a _ ih => exact fun ha => ih a ha ha

theorem acyclic_of_acc {a : α} (h : Acc (flip calls) a) : Acyclic calls a := by
  intro b hb
  have hacc : Acc (flip calls) b := by
    induction hb with
    | refl => exact h
    | tail _ hcall ih => exact ih.inv hcall
  intro hcyc
  exact not_rel_of_acc hacc.transGen (transGen_swap.mpr hcyc)

/-- Every call leaves fewer computations to be needed than there were. -/
theorem acc_of_acyclic {a : α} (hfin : {b | TransGen calls a b}.Finite) (h : Acyclic calls a) :
    Acc (flip calls) a := by
  induction hn : {b | TransGen calls a b}.ncard using Nat.strong_induction_on generalizing a with
  | _ n ih =>
    refine ⟨a, fun b hb => ?_⟩
    have hsub : {c | TransGen calls b c} ⊆ {c | TransGen calls a c} :=
      fun c hc => TransGen.head hb hc
    have hlt : {c | TransGen calls b c}.ncard < {c | TransGen calls a c}.ncard := by
      refine Set.ncard_lt_ncard ⟨hsub, fun hall => ?_⟩ hfin
      exact h b (ReflTransGen.single hb) (hall (TransGen.single hb))
    exact ih _ (hn ▸ hlt) (hfin.subset hsub) (h.of_calls hb) rfl

end Wine.Lib
