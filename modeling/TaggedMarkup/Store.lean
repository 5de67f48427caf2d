import TaggedMarkup.Artifact
/-!
# Stores of artifacts

A store holds at most one artifact for each address.
-/
namespace TaggedMarkup

structure Store where
  artifacts : List Artifact
  deriving Inhabited

namespace Store

def empty : Store := ⟨[]⟩

def get? (s : Store) (id : Path) : Option Artifact := s.artifacts.find? fun a => a.id = id

/-- Adds an artifact in place of any with the same address. -/
def insert (s : Store) (a : Artifact) : Store :=
  ⟨a :: s.artifacts.filter fun b => b.id ≠ a.id⟩

def erase (s : Store) (id : Path) : Store := ⟨s.artifacts.filter fun a => a.id ≠ id⟩

def size (s : Store) : Nat := s.artifacts.length

def ofList (artifacts : List Artifact) : Store := artifacts.foldl insert empty

theorem find?_filter_ne (artifacts : List Artifact) {id key : Path} (h : key ≠ id) :
    (artifacts.filter fun b => b.id ≠ key).find? (fun b => b.id = id) =
      artifacts.find? fun b => b.id = id := by
  induction artifacts with
  | nil => rfl
  | cons a rest ih =>
    by_cases hk : a.id = key
    · have hi : a.id ≠ id := fun hi => h (hk.symm.trans hi)
      have hf : decide (a.id ≠ key) = false := by simp [hk]
      have hd : decide (a.id = id) = false := by simp [hi]
      rw [List.filter_cons, hf, List.find?_cons, hd]
      simpa using ih
    · have hf : decide (a.id ≠ key) = true := by simp [hk]
      rw [List.filter_cons, hf]
      by_cases hi : a.id = id
      · simp [hi]
      · have hd : decide (a.id = id) = false := by simp [hi]
        simp only [if_true, List.find?_cons, hd]
        exact ih

theorem get?_insert (s : Store) (a : Artifact) (id : Path) :
    (s.insert a).get? id = if a.id = id then some a else s.get? id := by
  by_cases h : a.id = id
  · simp [insert, get?, h]
  · simp only [insert, get?, h, if_false, List.find?_cons, decide_false]
    exact find?_filter_ne s.artifacts h

theorem get?_erase (s : Store) (key id : Path) :
    (s.erase key).get? id = if key = id then none else s.get? id := by
  by_cases h : key = id
  · subst h
    simp [erase, get?]
  · rw [if_neg h]
    exact find?_filter_ne s.artifacts h

end Store

end TaggedMarkup
