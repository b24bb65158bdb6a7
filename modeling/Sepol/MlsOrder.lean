import Sepol.Sidtab
import Sepol.EbitmapPredicates

/-!
# The order of levels

What the functions of `mls_types.h` decide: a level dominates another one when its sensitivity is not lower and it has
all of its categories.
-/

namespace Sepol

variable {e1 e2 : Ebitmap} {l1 l2 : MlsLevel}

private theorem ebitmapContains_iff (h1 : e1.Canonical) (h2 : e2.Canonical) :
    ebitmapContains e1 e2 = true ↔ ∀ i, i ∈ e2 → i ∈ e1 :=
  ebitmapContains_iff_members h1 h2

/-! ### Levels -/

/-- The same sensitivity and the same categories. -/
def MlsLevel.Same (l1 l2 : MlsLevel) : Prop := l1.sens = l2.sens ∧ ∀ i, i ∈ l1.cat ↔ i ∈ l2.cat

def MlsLevel.Dominates (l1 l2 : MlsLevel) : Prop := l2.sens ≤ l1.sens ∧ ∀ i, i ∈ l2.cat → i ∈ l1.cat

theorem mlsLevelDom_iff (h1 : l1.cat.Canonical) (h2 : l2.cat.Canonical) :
    mlsLevelDom l1 l2 = true ↔ l1.Dominates l2 := by
  rw [mlsLevelDom, Bool.and_eq_true, decide_eq_true_iff, ebitmapContains_iff h1 h2]
  rfl

theorem mlsLevelEq_iff_same (h1 : l1.cat.Canonical) (h2 : l2.cat.Canonical) :
    mlsLevelEq l1 l2 = true ↔ l1.Same l2 := by
  rw [mlsLevelEq_iff]
  refine ⟨fun h => ?_, fun h => ?_⟩
  · rw [h]
    exact ⟨rfl, fun _ => Iff.rfl⟩
  · obtain ⟨sens1, cat1⟩ := l1
    obtain ⟨sens2, cat2⟩ := l2
    rw [MlsLevel.mk.injEq]
    exact ⟨h.1, h1.ext h2 h.2⟩

theorem MlsLevel.same_iff : l1.Same l2 ↔ l1.Dominates l2 ∧ l2.Dominates l1 := by
  unfold MlsLevel.Same MlsLevel.Dominates
  constructor
  · intro h
    exact ⟨⟨h.1.ge, fun i => (h.2 i).2⟩, h.1.le, fun i => (h.2 i).1⟩
  · intro h
    exact ⟨le_antisymm h.2.1 h.1.1, fun i => ⟨h.2.2 i, h.1.2 i⟩⟩

end Sepol
