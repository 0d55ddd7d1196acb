/-!
# Registries

Things kept under names, each name at most once.
-/

namespace FlatTable

/-- Things kept under names. -/
structure Registry (α : Type) where
  entries : List (String × α) := []

namespace Registry

variable {α : Type}

def find? (r : Registry α) (name : String) : Option α := r.entries.lookup name

def erase (r : Registry α) (name : String) : Registry α :=
  ⟨r.entries.filter fun entry => entry.1 ≠ name⟩

/-- Keeps a thing under a name, instead of the one kept before. -/
def set (r : Registry α) (name : String) (a : α) : Registry α := ⟨(name, a) :: (r.erase name).entries⟩

end Registry

end FlatTable
