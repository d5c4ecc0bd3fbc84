/-
Programs that make requests of a machine, one at a time.  A program can be run
to its end, or one request after the other while something else happens to
the machine in between; the rules say when the two come to the same.
-/
import Mathlib.Tactic.Common

namespace Interact

/-- A program: it returns, or makes a request and goes on with the answer. -/
inductive Prog (Req Ans α : Type) where
  | ret (a : α)
  | act (req : Req) (next : Ans → Prog Req Ans α)

namespace Prog

variable {Req Ans α β σ : Type}

def bind : Prog Req Ans α → (α → Prog Req Ans β) → Prog Req Ans β
  | ret a, f => f a
  | act req next, f => act req fun ans => (next ans).bind f

instance instMonad : Monad (Prog Req Ans) where
  pure := ret
  bind := bind

/-- The program that makes one request and returns the answer. -/
def request (req : Req) : Prog Req Ans Ans := act req ret

/-- Run to the end. -/
def run (handle : Req → σ → Ans × σ) : Prog Req Ans α → σ → α × σ
  | ret a, s => (a, s)
  | act req next, s =>
      (next (handle req s).1).run handle (handle req s).2

/-- Run up to and including the next request. -/
def step (handle : Req → σ → Ans × σ) :
    Prog Req Ans α → σ → (Prog Req Ans α ⊕ α) × σ
  | ret a, s => (.inr a, s)
  | act req next, s => (.inl (next (handle req s).1), (handle req s).2)

/-- Every request that the program makes from `s` on is one of `ok`. -/
def Only (handle : Req → σ → Ans × σ) (ok : Req → Prop) :
    Prog Req Ans α → σ → Prop
  | ret _, _ => True
  | act req next, s =>
      ok req ∧ (next (handle req s).1).Only handle ok (handle req s).2

variable {handle : Req → σ → Ans × σ} {ok : Req → Prop}

@[simp]
theorem run_pure (a : α) (s : σ) :
    (pure a : Prog Req Ans α).run handle s = (a, s) := rfl

@[simp]
theorem run_request (req : Req) (s : σ) :
    (request req : Prog Req Ans Ans).run handle s = handle req s := rfl

@[simp]
theorem run_bind (p : Prog Req Ans α) (f : α → Prog Req Ans β) (s : σ) :
    (p >>= f).run handle s =
      (f (p.run handle s).1).run handle (p.run handle s).2 := by
  induction p generalizing s with
  | ret a => rfl
  | act req next ih => exact ih _ _

@[simp]
theorem run_ite (c : Prop) [Decidable c] (p q : Prog Req Ans α) (s : σ) :
    (if c then p else q).run handle s =
      if c then p.run handle s else q.run handle s := by
  split <;> rfl

@[simp]
theorem only_ite (c : Prop) [Decidable c] (p q : Prog Req Ans α) (s : σ) :
    (if c then p else q).Only handle ok s ↔
      (c → p.Only handle ok s) ∧ (¬c → q.Only handle ok s) := by
  by_cases hc : c
  · simp [hc]
  · simp [hc]

@[simp]
theorem only_pure (a : α) (s : σ) :
    (pure a : Prog Req Ans α).Only handle ok s := trivial

@[simp]
theorem only_request (req : Req) (s : σ) :
    (request req : Prog Req Ans Ans).Only handle ok s ↔ ok req :=
  and_iff_left trivial

@[simp]
theorem only_bind (p : Prog Req Ans α) (f : α → Prog Req Ans β) (s : σ) :
    (p >>= f).Only handle ok s ↔ p.Only handle ok s ∧
      (f (p.run handle s).1).Only handle ok (p.run handle s).2 := by
  induction p generalizing s with
  | ret a => exact (iff_of_eq (true_and _)).symm
  | act req next ih => exact (and_congr_right fun _ => ih _ _).trans and_assoc.symm

theorem run_of_goesOn {p p' : Prog Req Ans α} {s s' : σ}
    (h : p.step handle s = (.inl p', s')) :
    p'.run handle s' = p.run handle s := by
  cases p with
  | ret a => cases h
  | act req next =>
      cases h
      rfl

theorem run_of_returns {p : Prog Req Ans α} {s s' : σ} {a : α}
    (h : p.step handle s = (.inr a, s')) : p.run handle s = (a, s') := by
  cases p with
  | ret a =>
      cases h
      rfl
  | act req next => cases h

theorem Only.goesOn {p p' : Prog Req Ans α} {s s' : σ}
    (h : p.Only handle ok s) (hstep : p.step handle s = (.inl p', s')) :
    p'.Only handle ok s' := by
  cases p with
  | ret a => cases hstep
  | act req next =>
      cases hstep
      exact h.2

theorem Only.mono {ok' : Req → Prop} {p : Prog Req Ans α} {s : σ}
    (h : p.Only handle ok s) (himp : ∀ req, ok req → ok' req) :
    p.Only handle ok' s := by
  induction p generalizing s with
  | ret a => trivial
  | act req next ih => exact ⟨himp req h.1, ih _ h.2⟩

theorem only_forall {ι : Sort*} {ok : ι → Req → Prop} {p : Prog Req Ans α}
    {s : σ} (h : ∀ i, p.Only handle (ok i) s) :
    p.Only handle (fun req => ∀ i, ok i req) s := by
  induction p generalizing s with
  | ret a => trivial
  | act req next ih => exact ⟨fun i => (h i).1, ih _ fun i => (h i).2⟩

/-- A change of the machine that the requests of a program do not notice might
as well happen behind it. -/
theorem Only.run_comm {p : Prog Req Ans α} {s : σ}
    (h : p.Only handle ok s) (change : σ → σ)
    (hcomm : ∀ req s, ok req →
      handle req (change s) = ((handle req s).1, change (handle req s).2)) :
    p.run handle (change s) =
        ((p.run handle s).1, change (p.run handle s).2) ∧
      p.Only handle ok (change s) := by
  induction p generalizing s with
  | ret a => exact ⟨rfl, trivial⟩
  | act req next ih =>
      obtain ⟨hreq, hnext⟩ := h
      have hrest := ih _ hnext
      simp only [run, Only, hcomm req s hreq]
      exact ⟨hrest.1, hreq, hrest.2⟩

/-- What the requests of a program keep, its whole run keeps. -/
theorem Only.run_kept {p : Prog Req Ans α} {s : σ} {P : σ → Prop}
    (h : p.Only handle ok s) (hs : P s)
    (hkept : ∀ req s, ok req → P s → P (handle req s).2) :
    P (p.run handle s).2 := by
  induction p generalizing s with
  | ret a => exact hs
  | act req next ih => exact ih _ h.2 (hkept req s h.1 hs)

end Prog

end Interact
