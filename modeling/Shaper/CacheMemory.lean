import Shaper.DmaHandles
import Shaper.PrpGeometry

/-! From the cache to the memory of the GPU: pages of 64 KB, the DMA handle over them, the
tables of the cache, and the controller that follows the tables. -/
namespace Shaper.CacheMemory
open Nvme PrpBuild PrpTables PrpGeometry DmaHandles

variable {ps np lbaDataSize x y : Nat} {vaddr : BitVec 64} {src : List (BitVec 64)} {c : Container}
  {pages lists : Dma} {t : Tables}

theorem names_of_built (hps : ps ∣ 4096 ∨ 4096 ∣ ps) (hpos : 0 < ps) (hpages : Maps pages (ps*np))
    (hlists : 8192 < ps → Maps lists (prpListSize np)) (hnodup : lists.ioaddrs.Nodup)
    (hbuilt : constructCache ps np lbaDataSize pages lists = .built t) : Names ps np pages t := by
  have h : Accepts ps np lbaDataSize := by
    by_contra hnot
    rw [Accepts, not_and_or, not_not] at hnot
    rw [constructCache, if_pos hnot] at hbuilt
    cases hbuilt
  have hright : (constructCache ps np lbaDataSize pages lists).Right ps np pages := by
    obtain hdvd | ⟨n, rfl⟩ := hps
    · exact right_small h hdvd hpages
    rcases Nat.lt_trichotomy n 2 with hn | rfl | hn
    · obtain rfl : n = 1 := by omega
      exact right_small h (dvd_refl 4096) hpages
    · exact right_two h hpages
    · refine right_lists h rfl hn hpages (hlists (by omega)) hnodup ?_
      by_contra hwrap
      rw [outside_of_wrap h (by omega) (hlists (by omega)) hwrap] at hbuilt
      cases hbuilt
  rw [hbuilt] at hright
  cases hright with
  | built hnames => exact hnames

/-- The controller finds each byte of each cache page where the GPU has it, and no two bytes
at one address. -/
theorem controller_reaches_memory (hps : ps ∣ 4096 ∨ 4096 ∣ ps) (hpos : 0 < ps)
    (hmap : dmaMap 4096 vaddr 65536 src true = .ok c) (hsize : 65536*src.length = align64K (ps*np))
    (hlt : ps*np < 2^63) (hsrc : src.Nodup) (halign : ∀ a ∈ src, a.toNat % 65536 = 0)
    (hpages : pages.ioaddrs = c.handle.ioaddrs) (hlists : 8192 < ps → Maps lists (prpListSize np))
    (hnodup : lists.ioaddrs.Nodup)
    (hbuilt : constructCache ps np lbaDataSize pages lists = .built t)
    (data : BitVec 64 → BitVec 64) : ∀ p < np, ∀ x < ps,
      byteAddr (t.decode data p) x = busAddress 65536 src (p*ps + x) ∧
      ∀ q < np, ∀ y < ps, byteAddr (t.decode data p) x = byteAddr (t.decode data q) y →
      p*ps + x = q*ps + y := by
  unfold align64K at hsize
  obtain ⟨hacc, rfl⟩ := dmaMap_ok hmap (by omega)
  rw [ioaddrs_populate _ hacc] at hpages
  have hmaps : Maps pages (ps*np) := by
    have := hacc.nCtrlPages_mul
    simp only [Maps, hpages, List.length_map, List.length_range, align64K]
    omega
  have hread :=
    (translates_iff hacc).mpr fun m _ _ hnd => absurd ((by decide : 4096 ∣ 65536).mul_left m) hnd
  rw [← hpages] at hread
  have hin (p : Nat) (hp : p < np) (x : Nat) (hx : x < ps) : p*ps + x < ps*np :=
    Nat.mul_comm ps np ▸ row_lt hp hx le_rfl
  have hbyte (p : Nat) (hp : p < np) (x : Nat) (hx : x < ps) :
      byteAddr (t.decode data p) x = busAddress 65536 src (p*ps + x) := by
    have := hread _ (hmaps.covers (hin p hp x hx)) _ (Nat.mod_lt (p*ps + x) (by decide))
    rw [Nat.div_add_mod'] at this
    exact ((names_of_built hps hpos hmaps hlists hnodup hbuilt).pointer p hp data x hx).trans this
  intro p hp x hx
  refine ⟨hbyte p hp x hx, fun q hq y hy he => ?_⟩
  rw [hbyte p hp x hx, hbyte q hq y hy] at he
  have := hin p hp x hx
  have := hin q hq y hy
  exact paged_inj (P := 65536) (by decide) hsrc halign (by omega) (by omega) he

/-- Eight pages of 8 KB in one page of the GPU. -/
theorem eight_pages_reached :
    ∃ t, constructCache 8192 8 512 (.inOrder 256 16) (.inOrder 0 0) = .built t ∧
    ∀ data, byteAddr (t.decode data 7) 5000 = 0x10f388#64 := by
  obtain ⟨t, ht⟩ : ∃ t, constructCache 8192 8 512 (.inOrder 256 16) (.inOrder 0 0) = .built t :=
    ⟨_, rfl⟩
  have hmap : dmaMap 4096 0#64 65536 [0x100000#64] true = .ok _ := rfl
  exact ⟨t, ht,
    fun data => (controller_reaches_memory (by decide) (by decide) hmap rfl (by decide) (by decide)
      (by simp) (by decide) (fun h => absurd h (by decide)) (nodup_inOrder (by decide)) ht data 7
      (by decide) 5000 (by decide)).1⟩

end Shaper.CacheMemory
