import Mathlib.Data.List.GetD
import Mathlib.Data.List.Range

/-! Flat byte memories, read and written in runs of bytes and copied page by page. -/
namespace Shaper.Lib.Bytes

abbrev Memory := Nat → UInt8

def load (m : Memory) (a n : Nat) : List UInt8 := (List.range n).map fun k => m (a+k)

def store (m : Memory) (a : Nat) (v : List UInt8) : Memory := fun x =>
  if a ≤ x ∧ x < a+v.length then v.getD (x-a) 0 else m x

def copyPage (size : Nat) (src dst : Memory) (s d : Nat) : Memory := fun x =>
  if x/size = d then src (s*size+x%size) else dst x

variable {m m' : Memory} {a a' n b size s d t : Nat} {v : List UInt8}

theorem load_congr (h : ∀ k < n, m (a+k) = m' (a'+k)) : load m a n = load m' a' n :=
  List.map_congr_left fun k hk => h k (List.mem_range.mp hk)

theorem store_outside (h : b < a ∨ a+v.length ≤ b) : store m a v b = m b := by
  rw [store, if_neg (by omega)]

theorem store_inside {k : Nat} (h : k < v.length) : store m a v (a+k) = v.getD k 0 := by
  rw [store, if_pos (by omega), Nat.add_sub_cancel_left]

theorem store_shift {c : Nat} (h : m (c+b) = m' b) : store m (c+a) v (c+b) = store m' a v b := by
  unfold store
  rw [h, Nat.add_sub_add_left]
  by_cases hin : a ≤ b ∧ b < a+v.length
  · rw [if_pos (by omega), if_pos hin]
  · rw [if_neg (by omega), if_neg hin]

theorem load_store (h : v.length = n) : load (store m a v) a n = v := by
  subst h
  refine List.ext_getElem (by simp [load]) fun k hk hk' => ?_
  simp only [load, List.getElem_map, List.getElem_range]
  rw [store_inside hk', List.getD_eq_getElem _ _ hk']

theorem load_store_apart (h : a'+n ≤ a ∨ a+v.length ≤ a') :
    load (store m a v) a' n = load m a' n :=
  load_congr fun k hk => store_outside (by omega)

theorem page_div (h : b < size) : (t*size+b)/size = t := by
  rw [Nat.mul_comm, Nat.mul_add_div (by omega), Nat.div_eq_of_lt h, Nat.add_zero]

theorem page_mod (h : b < size) : (t*size+b)%size = b := by
  rw [Nat.mul_comm, Nat.mul_add_mod, Nat.mod_eq_of_lt h]

theorem copyPage_at (h : b < size) (src dst : Memory) :
    copyPage size src dst s d (t*size+b) = if t = d then src (s*size+b) else dst (t*size+b) := by
  rw [copyPage, page_div h, page_mod h]

end Shaper.Lib.Bytes
