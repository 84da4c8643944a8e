import Mathlib.Algebra.GroupWithZero.Nat
import TinyOS.Lib.Transition

/-! Machines whose events use up a finite amount of work. -/

namespace Transition

variable {σ ε : Type*} {step : σ → ε → Option σ} {ok : σ → ε → Prop} {s t : σ}

/-- Each event does some of the work that is left, or adds to it. -/
theorem exec_work {I : σ → Prop} {work : σ → Nat} {done added : ε → Nat} {es : List ε}
    (h : exec step s es = some t) (hs : I s) (hI : ∀ u e v, I u → step u e = some v → I v)
    (hwork : ∀ u e v, I u → step u e = some v → work v + done e ≤ work u + added e) :
    work t + (es.map done).sum ≤ work s + (es.map added).sum := by
  induction es generalizing s with
  | nil =>
    obtain rfl : s = t := by simpa [exec] using h
    exact Nat.le_refl _
  | cons e es ih =>
    obtain ⟨u, hu, ht⟩ := Option.bind_eq_some_iff.mp h
    have hfirst := hwork s e u hs hu
    have hrest := ih ht (hI s e u hs hu)
    simp only [List.map_cons, List.sum_cons]
    omega

/-- A machine that can always do some work until it is over can be brought to its end. -/
theorem exists_reach_over {I finished : σ → Prop} (work : σ → Nat)
    (hI : ∀ u e v, I u → step u e = some v → I v)
    (hlive : ∀ u, I u → ¬finished u → ∃ e v, ok u e ∧ step u e = some v ∧ work v < work u)
    (hs : I s) :
    ∃ t, Reach step ok s t ∧ finished t := by
  obtain ⟨n, hn⟩ : ∃ n, n = work s := ⟨_, rfl⟩
  induction n using Nat.strongRecOn generalizing s with
  | ind n ih =>
    by_cases hover : finished s
    · exact ⟨s, .refl, hover⟩
    · obtain ⟨e, u, hok, hu, hlt⟩ := hlive s hs hover
      obtain ⟨t, hreach, ht⟩ := ih (work u) (hn ▸ hlt) (hI s e u hs hu) rfl
      exact ⟨t, .head ⟨e, hok, hu⟩ hreach, ht⟩

end Transition
