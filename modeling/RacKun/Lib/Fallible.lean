/-
  RacKun.Lib.Fallible — taking fallible computations apart: a sequence that succeeded is
  its parts, each of which succeeded (`bind_ok`), and a loop that succeeded keeps what
  every round keeps (`foldlM_keeps`); and two that agree step by step agree (`Agree`).
-/

import Mathlib.Data.List.Basic

namespace RacKun.Lib

variable {ε α β : Type}

@[simp] theorem pure_ok {a b : α} : (pure a : Except ε α) = .ok b ↔ a = b := by
  simp [pure, Except.pure]

@[simp] theorem throw_ok {e : ε} {b : α} : (throw e : Except ε α) = .ok b ↔ False := by
  simp [throw, throwThe, MonadExceptOf.throw]

theorem bind_ok {x : Except ε α} {f : α → Except ε β} {b : β} :
    (x >>= f) = .ok b ↔ ∃ a, x = .ok a ∧ f a = .ok b := by
  cases x <;> simp [bind, Except.bind]

theorem ok_bind {a : α} {f : α → Except ε β} : ((.ok a : Except ε α) >>= f) = f a := rfl

/-- What every round of a loop keeps, the loop keeps. -/
theorem foldlM_keeps {P : β → Prop} {f : β → α → Except ε β} : ∀ {l : List α},
    (∀ a ∈ l, ∀ b b', P b → f b a = .ok b' → P b') → ∀ {b b' : β}, P b → l.foldlM f b = .ok b' → P b' := by
  intro l
  induction l with
  | nil => intro _ b b' hb h; cases h; exact hb
  | cons a l ih =>
    intro hf b b' hb h
    rw [List.foldlM_cons, bind_ok] at h
    obtain ⟨c, hc, h⟩ := h
    exact ih (fun a' ha' => hf a' (List.mem_cons_of_mem a ha')) (hf a List.mem_cons_self b c hb hc) h

theorem foldlM_congr {f g : β → α → Except ε β} : ∀ {l : List α}, (∀ a ∈ l, ∀ b, f b a = g b a) →
    ∀ b, l.foldlM f b = l.foldlM g b := by
  intro l
  induction l with
  | nil => intro _ b; rfl
  | cons a l ih =>
    intro h b
    rw [List.foldlM_cons, List.foldlM_cons, h a List.mem_cons_self b]
    exact congrArg _ (funext fun c => ih (fun a' ha' => h a' (List.mem_cons_of_mem a ha')) c)

/-! ## Two computations -/

/-- Both succeed, with related results, or both fail, with related errors. -/
inductive Agree {γ : Type} (E : ε → ε → Prop) (R : α → γ → Prop) : Except ε α → Except ε γ → Prop
  | ok {a : α} {c : γ} (h : R a c) : Agree E R (.ok a) (.ok c)
  | error {x y : ε} (h : E x y) : Agree E R (.error x) (.error y)

theorem Agree.bind {γ δ : Type} {E : ε → ε → Prop} {R : α → γ → Prop} {S : β → δ → Prop} {x : Except ε α}
    {y : Except ε γ} {f : α → Except ε β} {g : γ → Except ε δ} (h : Agree E R x y)
    (hf : ∀ a c, R a c → Agree E S (f a) (g c)) : Agree E S (x >>= f) (y >>= g) := by
  cases h with
  | ok h => exact hf _ _ h
  | error h => exact .error h

theorem Agree.foldlM {γ : Type} {E : ε → ε → Prop} {R : β → γ → Prop} {f : β → α → Except ε β} {g : γ → α → Except ε γ}
    (hf : ∀ b c a, R b c → Agree E R (f b a) (g c a)) : ∀ {l : List α} {b : β} {c : γ}, R b c →
      Agree E R (l.foldlM f b) (l.foldlM g c) := by
  intro l
  induction l with
  | nil => intro b c h; exact .ok h
  | cons a l ih =>
    intro b c h
    rw [List.foldlM_cons, List.foldlM_cons]
    exact (hf b c a h).bind fun b' c' h' => ih h'

end RacKun.Lib
