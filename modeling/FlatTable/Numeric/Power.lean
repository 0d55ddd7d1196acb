/-!
# Powers of two and ten
-/

namespace FlatTable

def twoPow (n : Nat) : Nat := Nat.pow 2 n

def tenPow (n : Nat) : Nat := Nat.pow 10 n

/-- The number of 64-bit words. -/
def wordLimit : Nat := twoPow 64

end FlatTable
