import Mathlib.Order.Bounds.Basic

structure LevelSet (n : ℕ) (E : Type*) where
  empty : E
  add : E → ℕ → E
  remove : E → ℕ → E
  least : E → ℕ
  Has : E → ℕ → Prop
  Valid : E → Prop
  valid_empty : Valid empty
  valid_add : ∀ {e p}, Valid e → p < n → Valid (add e p)
  valid_remove : ∀ {e p}, Valid e → p < n → Valid (remove e p)
  not_has_empty : ∀ p, ¬ Has empty p
  has_add : ∀ {e p q}, p < n → (Has (add e p) q ↔ q = p ∨ Has e q)
  has_remove : ∀ {e p q}, p < n → (Has (remove e p) q ↔ q ≠ p ∧ Has e q)
  isLeast : ∀ {e p}, Valid e → Has e p → IsLeast {q | Has e q} (least e)

namespace LevelSet

variable {n : ℕ} {E α : Type*} (S : LevelSet n E)

structure Tracks (e : E) (buckets : ℕ → List α) : Prop where
  valid : S.Valid e
  has_iff : ∀ p, S.Has e p ↔ buckets p ≠ []

variable {S} {e : E} {buckets buckets' : ℕ → List α} {p : ℕ}

theorem tracks_empty : S.Tracks S.empty (fun _ => ([] : List α)) :=
  ⟨S.valid_empty, fun p => by simp [S.not_has_empty p]⟩

variable (h : S.Tracks e buckets)

include h

theorem Tracks.isLeast (hp : buckets p ≠ []) : IsLeast {q | buckets q ≠ []} (S.least e) := by
  have hset : {q | buckets q ≠ []} = {q | S.Has e q} := by
    ext q
    exact (h.has_iff q).symm
  rw [hset]
  exact S.isLeast h.valid ((h.has_iff p).mpr hp)

theorem Tracks.add (hp : p < n) (hb : buckets' p ≠ [])
    (hother : ∀ q, q ≠ p → buckets' q = buckets q) : S.Tracks (S.add e p) buckets' := by
  refine ⟨S.valid_add h.valid hp, fun q => ?_⟩
  rw [S.has_add hp]
  obtain rfl | hq := eq_or_ne q p
  · simp [hb]
  · rw [hother q hq, ← h.has_iff q]
    simp [hq]

theorem Tracks.remove (hp : p < n) (hb : buckets' p = [])
    (hother : ∀ q, q ≠ p → buckets' q = buckets q) : S.Tracks (S.remove e p) buckets' := by
  refine ⟨S.valid_remove h.valid hp, fun q => ?_⟩
  rw [S.has_remove hp]
  obtain rfl | hq := eq_or_ne q p
  · simp [hb]
  · rw [hother q hq, ← h.has_iff q]
    simp [hq]

theorem Tracks.keep (hb : ∀ q, buckets' q = [] ↔ buckets q = []) : S.Tracks e buckets' :=
  ⟨h.valid, fun q => by rw [h.has_iff q, ne_eq, ne_eq, hb q]⟩

end LevelSet
