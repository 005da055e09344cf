/-
  Programs that may not return.

  A program returns a value, or it does not: it ends the process, its behaviour is
  undefined, or the steps that it was allowed are used up.  `Agree P Q x y` says that `x`
  and `y` do the same, and that this is to return a value with `P`, or to end the process
  with `Q`.  With two allowances of steps for `x` and `y` it says that the smaller one is
  enough.
-/
import Mathlib.Data.List.Basic

namespace Stopping

/-- Why a program does not return. -/
inductive Stopped (ε : Type) where
  | ended (exit : ε)
  | undefined
  | running

variable {ε α β : Type} {P : α → Prop} {R : β → Prop} {Q : ε → Prop}

/-- The program returns a value with `P`, or ends with `Q`. -/
def Ends (P : α → Prop) (Q : ε → Prop) : Except (Stopped ε) α → Prop
  | .ok a => P a
  | .error (.ended e) => Q e
  | .error .undefined => False
  | .error .running => False

theorem Ends.mono {P' : α → Prop} {Q' : ε → Prop} {x : Except (Stopped ε) α} (h : Ends P Q x)
    (hP : ∀ a, P a → P' a) (hQ : ∀ e, Q e → Q' e) : Ends P' Q' x :=
  match x, h with
  | .ok a, h => hP a h
  | .error (.ended e), h => hQ e h

/-- Both programs do the same: they return a value with `P`, or end with `Q`. -/
structure Agree (P : α → Prop) (Q : ε → Prop) (x y : Except (Stopped ε) α) : Prop where
  eq : x = y
  ends : Ends P Q x

theorem Agree.ok {a : α} (h : P a) : Agree P Q (.ok a) (.ok a) := ⟨rfl, h⟩

theorem Agree.ended {e : ε} (h : Q e) : Agree P Q (.error (.ended e)) (.error (.ended e)) :=
  ⟨rfl, h⟩

/-- One program after the other. -/
theorem Agree.bind {x y : Except (Stopped ε) α} {f g : α → Except (Stopped ε) β}
    (hx : Agree P Q x y) (hf : ∀ a, P a → Agree R Q (f a) (g a)) :
    Agree R Q (x >>= f) (y >>= g) := by
  obtain ⟨rfl, hends⟩ := hx
  match x, hends with
  | .ok a, h => exact hf a h
  | .error (.ended _), h => exact .ended h

/-- **An invariant of a loop** over a list. -/
theorem Agree.foldlM {S : Type} {f g : S → α → Except (Stopped ε) S} {I : S → Prop}
    (hstep : ∀ s a, I s → Agree I Q (f s a) (g s a)) :
    ∀ (as : List α) {s : S}, I s → Agree I Q (as.foldlM f s) (as.foldlM g s)
  | [], _, hs => .ok hs
  | a :: as, s, hs => by
    rw [List.foldlM_cons, List.foldlM_cons]
    exact (hstep s a hs).bind fun _ => Agree.foldlM hstep as

end Stopping
