import Mathlib

/-!
# RedisLike.Lib.Footprint

Functions on a store that touch some of its cells only.

A store is anything with a value for each key.  A function `Touches` a set of
keys when it leaves the other cells as they are, and when its result and what it
leaves in those keys depend on those keys alone.  Functions with disjoint
footprints commute (`Touches.comm`).
-/

namespace RedisLike

variable {σ κ ν ρ ρ' : Type*}

/-- `f` reads and writes the cells of `keys` alone. -/
structure Touches (get : σ → κ → ν) (keys : Set κ) (f : σ → ρ × σ) : Prop where
  frame : ∀ s, ∀ k ∉ keys, get (f s).2 k = get s k
  result : ∀ s s', Set.EqOn (get s) (get s') keys → (f s).1 = (f s').1
  cells : ∀ s s', Set.EqOn (get s) (get s') keys → Set.EqOn (get (f s).2) (get (f s').2) keys

namespace Touches

variable {get : σ → κ → ν} {keys keys' : Set κ} {f : σ → ρ × σ} {g : σ → ρ' × σ}

theorem const (get : σ → κ → ν) (keys : Set κ) (r : ρ) : Touches get keys fun s => (r, s) :=
  ⟨fun _ _ _ => rfl, fun _ _ _ => rfl, fun _ _ h => h⟩

theorem mono (hf : Touches get keys f) (h : keys ⊆ keys') : Touches get keys' f where
  frame s k hk := hf.frame s k fun hmem => hk (h hmem)
  result s s' heq := hf.result s s' (heq.mono h)
  cells s s' heq k hk := by
    by_cases hmem : k ∈ keys
    · exact hf.cells s s' (heq.mono h) hmem
    · rw [hf.frame s k hmem, hf.frame s' k hmem, heq hk]

/-- A function does not see what another one with a disjoint footprint has done. -/
theorem eqOn_of_disjoint (hg : Touches get keys' g) (hd : Disjoint keys keys') (s : σ) :
    Set.EqOn (get (g s).2) (get s) keys :=
  fun k hk => hg.frame s k (Set.disjoint_left.mp hd hk)

/-- **Functions with disjoint footprints commute**: the same two results, and
the same store. -/
theorem comm (hf : Touches get keys f) (hg : Touches get keys' g) (hd : Disjoint keys keys')
    (s : σ) : (f (g s).2).1 = (f s).1 ∧ (g (f s).2).1 = (g s).1 ∧
      ∀ k, get (f (g s).2).2 k = get (g (f s).2).2 k := by
  have hfs := eqOn_of_disjoint hg hd s
  have hgs := eqOn_of_disjoint hf hd.symm s
  refine ⟨hf.result _ _ hfs, hg.result _ _ hgs, fun k => ?_⟩
  by_cases hk : k ∈ keys
  · rw [hf.cells _ _ hfs hk, hg.frame _ k (Set.disjoint_left.mp hd hk)]
  · rw [hf.frame _ k hk]
    by_cases hk' : k ∈ keys'
    · exact (hg.cells _ _ hgs hk').symm
    · rw [hg.frame _ k hk', hg.frame _ k hk', hf.frame _ k hk]

end Touches

end RedisLike
