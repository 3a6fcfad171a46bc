import Bitfield.Failure

/-! How computations end. A loop ends with its invariant if every step succeeds and carries it on. Two
computations end alike if both succeed, with results that are related, or both are refused for one
reason; either of them then does not fault. -/

namespace Bitfield.Outcome

variable {α β γ δ : Type}

/-- A computation that succeeds or is refused. -/
def Faultless (x : Outcome α) : Prop :=
  ∀ f, x ≠ fault f

theorem faultless_ok (a : α) : Faultless (.ok a : Outcome α) := by
  intro f hf
  cases hf

theorem faultless_refuse (e : Error) : Faultless (refuse e : Outcome α) := by
  intro f hf
  cases hf

theorem Faultless.bind {x : Outcome α} {next : α → Outcome β} (h : x.Faultless)
    (hnext : ∀ a, (next a).Faultless) : (x >>= next).Faultless := by
  cases x with
  | ok a => exact hnext a
  | error e =>
      intro f hf
      cases hf
      exact h f rfl

theorem mapM_of_ok {f : α → Outcome β} {g : α → β} {items : List α}
    (h : ∀ a ∈ items, f a = .ok (g a)) : items.mapM f = .ok (items.map g) := by
  induction items with
  | nil => rfl
  | cons a rest ih =>
      have hhead := h a List.mem_cons_self
      have htail := ih fun b hb => h b (List.mem_cons_of_mem a hb)
      rw [List.mapM_cons, hhead, ok_bind, htail, ok_bind]
      rfl

/-- A loop over the first `count` indices succeeds, with an invariant of how many of them are done. -/
theorem foldlM_range {σ : Type} {step : σ → Nat → Outcome σ} {P : Nat → σ → Prop} {s : σ}
    {count : Nat} (hstart : P 0 s)
    (hstep : ∀ i < count, ∀ t, P i t → ∃ u, step t i = .ok u ∧ P (i + 1) u) :
    ∃ t, (List.range count).foldlM step s = .ok t ∧ P count t := by
  induction count with
  | zero => exact ⟨s, rfl, hstart⟩
  | succ count ih =>
      obtain ⟨t, ht, hdone⟩ := ih fun i hi => hstep i (Nat.lt_succ_of_lt hi)
      obtain ⟨u, hu, hnext⟩ := hstep count (Nat.lt_succ_self count) t hdone
      refine ⟨u, ?_, hnext⟩
      rw [List.range_succ, List.foldlM_append, ht, ok_bind, List.foldlM_cons, hu]
      rfl

/-- Two computations that succeed with related results or are refused for the same reason. -/
inductive Alike (R : α → β → Prop) : Outcome α → Outcome β → Prop where
  | ok {a : α} {b : β} : R a b → Alike R (.ok a) (.ok b)
  | refused (e : Error) : Alike R (refuse e) (refuse e)

namespace Alike

variable {R : α → β → Prop} {x : Outcome α} {y : Outcome β}

theorem bind {S : γ → δ → Prop} {f : α → Outcome γ} {g : β → Outcome δ} (h : Alike R x y)
    (hnext : ∀ a b, R a b → Alike S (f a) (g b)) : Alike S (x >>= f) (y >>= g) := by
  cases h with
  | ok h => exact hnext _ _ h
  | refused e => exact .refused e

theorem faultless (h : Alike R x y) : x.Faultless := by
  cases h with
  | ok _ => exact faultless_ok _
  | refused e => exact faultless_refuse e

end Alike

end Bitfield.Outcome
