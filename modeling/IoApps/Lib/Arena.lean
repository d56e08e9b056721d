import Mathlib.Data.List.Basic

/-! Memory blocks by address. A block is handed out once, written in place and given back;
an address given back is never handed out again, so that a use after it is visible. -/
namespace IoApps.Lib

abbrev Arena (α : Type) := List (Option α)

namespace Arena
variable {α : Type}

def read (h : Arena α) (a : Nat) : Option α := h[a]?.join
def fresh (h : Arena α) : Nat := h.length
def alloc (h : Arena α) (v : α) : Arena α := h ++ [some v]
def write (h : Arena α) (a : Nat) (v : α) : Arena α := h.set a (some v)
def free (h : Arena α) (a : Nat) : Arena α := h.set a none

theorem readBound {h : Arena α} {a : Nat} {v : α} (r : h.read a = some v) : a < h.length := by
  rcases Nat.lt_or_ge a h.length with inside | outside
  · exact inside
  · rw [read,List.getElem?_eq_none outside] at r
    simp at r

theorem readAlloc (h : Arena α) (v : α) : (h.alloc v).read h.fresh = some v := by
  simp [read,alloc,fresh]

theorem readAllocOld {h : Arena α} {a : Nat} {w : α} (v : α) (r : h.read a = some w) :
    (h.alloc v).read a = some w := by
  have inside := readBound r
  simpa only [read,alloc,List.getElem?_append_left inside] using r

theorem readAllocNe (h : Arena α) (v : α) {a : Nat} (different : a ≠ h.fresh) :
    (h.alloc v).read a = h.read a := by
  rcases Nat.lt_trichotomy a h.length with lt | eq | gt
  · simp only [read,alloc,List.getElem?_append_left lt]
  · exact absurd eq different
  · have here : h[a]? = none := List.getElem?_eq_none (by omega)
    have there : (h ++ [some v])[a]? = none := List.getElem?_eq_none (by simp; omega)
    simp only [read,alloc,here,there]

theorem readFresh (h : Arena α) : h.read h.fresh = none := by
  simp [read,fresh]

theorem readWrite {h : Arena α} {a : Nat} {w : α} (v : α) (r : h.read a = some w) :
    (h.write a v).read a = some v := by
  have inside := readBound r
  simp [read,write,List.getElem?_set_self inside]

theorem readWriteNe (h : Arena α) (v : α) {a b : Nat} (different : b ≠ a) :
    (h.write a v).read b = h.read b := by
  simp only [read,write,List.getElem?_set_ne different.symm]

theorem readFree (h : Arena α) (a : Nat) : (h.free a).read a = none := by
  simp only [read,free,List.getElem?_set]
  by_cases inside : a < h.length
  · simp [inside]
  · simp [inside]

theorem readFreeNe (h : Arena α) {a b : Nat} (different : b ≠ a) :
    (h.free a).read b = h.read b := by
  simp only [read,free,List.getElem?_set_ne different.symm]

end Arena
end IoApps.Lib
