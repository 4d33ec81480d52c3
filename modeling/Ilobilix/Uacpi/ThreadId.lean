import Mathlib.Algebra.GroupWithZero.Nat
import Mathlib.Data.Nat.Pairing
import Mathlib.Data.Set.Operations

/-!
# The thread ids of uACPI

`uacpi_kernel_get_thread_id` pairs the tid of a thread with the pid of its process.
`lib::unique_from` does that with Szudzik's function in 64-bit words. Below `2 ^ 32` nothing wraps
around and it is `Nat.pair`; a pid of `-1`, which the idle processes have, is not below `2 ^ 32`.
-/

namespace Ilobilix.Lib

def szudzik (x y : UInt64) : UInt64 := if x ≥ y then x * x + x + y else y * y + x

def uniqueFrom : UInt64 → List UInt64 → UInt64
  | a, [] => a
  | a, [b] => szudzik a b
  | a, b :: args => szudzik a (uniqueFrom b args)

theorem toNat_szudzik {x y : UInt64} (hx : x.toNat < 2 ^ 32) (hy : y.toNat < 2 ^ 32) :
    (szudzik x y).toNat = Nat.pair x.toNat y.toNat := by
  have hbound : Nat.pair x.toNat y.toNat < 2 ^ 64 := by
    have hmax : max x.toNat y.toNat + 1 ≤ 2 ^ 32 := by omega
    calc Nat.pair x.toNat y.toNat < (max x.toNat y.toNat + 1) ^ 2 := Nat.pair_lt_max_add_one_sq _ _
      _ ≤ (2 ^ 32) ^ 2 := Nat.pow_le_pow_left hmax 2
      _ = 2 ^ 64 := (Nat.pow_mul 2 32 2).symm
  unfold szudzik
  unfold Nat.pair at hbound ⊢
  by_cases hge : x ≥ y
  · have hlt : ¬x.toNat < y.toNat := Nat.not_lt.mpr (UInt64.le_iff_toNat_le.mp hge)
    rw [if_neg hlt] at hbound
    rw [if_pos hge, if_neg hlt, UInt64.toNat_add, UInt64.toNat_add, UInt64.toNat_mul,
      Nat.mod_eq_of_lt (a := x.toNat * x.toNat) (by omega),
      Nat.mod_eq_of_lt (a := x.toNat * x.toNat + x.toNat) (by omega), Nat.mod_eq_of_lt hbound]
  · have hlt : x.toNat < y.toNat := UInt64.lt_iff_toNat_lt.mp (UInt64.not_le.mp hge)
    rw [if_pos hlt] at hbound
    rw [if_neg hge, if_pos hlt, UInt64.toNat_add, UInt64.toNat_mul,
      Nat.mod_eq_of_lt (a := y.toNat * y.toNat) (by omega), Nat.mod_eq_of_lt hbound]

/-- Pairs of numbers below `2 ^ 32`. -/
def Small : Set (UInt64 × UInt64) := {p | p.1.toNat < 2 ^ 32 ∧ p.2.toNat < 2 ^ 32}

theorem szudzik_injOn : Set.InjOn (fun p : UInt64 × UInt64 => szudzik p.1 p.2) Small := by
  rintro ⟨a, b⟩ ⟨ha, hb⟩ ⟨c, d⟩ ⟨hc, hd⟩ heq
  have hpair := congrArg UInt64.toNat heq
  rw [toNat_szudzik ha hb, toNat_szudzik hc hd] at hpair
  obtain ⟨hac, hbd⟩ := Nat.pair_eq_pair.mp hpair
  exact Prod.ext (UInt64.toNat_inj.mp hac) (UInt64.toNat_inj.mp hbd)

end Ilobilix.Lib

namespace Ilobilix.Uacpi

/-- A thread, with the pid of its process. -/
@[ext] structure ThreadIds where
  tid : Int32
  pid : Int32
deriving DecidableEq

/-- `static_cast<std::size_t>` of a `pid_t`. -/
def toSize (id : Int32) : UInt64 := id.toInt64.toUInt64

/-- `uacpi_kernel_get_thread_id`. -/
def getThreadId (initialised : Bool) (thread : ThreadIds) : UInt64 :=
  if initialised then Lib.uniqueFrom (toSize thread.tid) [toSize thread.pid] else 1

/-- The threads of the processes with a pid from `alloc_pid`. -/
def Numbered : Set ThreadIds := {t | 0 ≤ t.tid ∧ 0 ≤ t.pid}

theorem toSize_injective : Function.Injective toSize := by
  intro id id' heq
  have hback := congrArg (fun w : UInt64 => w.toInt64.toInt32) heq
  simpa only [toSize, Int64.toInt64_toUInt64, Int32.toInt32_toInt64] using hback

theorem toNat_toSize_lt {id : Int32} (h : 0 ≤ id) : (toSize id).toNat < 2 ^ 32 := by
  have hzero : (0 : Int32).toInt64 = 0 := rfl
  have hnonneg : (0 : Int64) ≤ id.toInt64 := hzero ▸ Int32.toInt64_le.mpr h
  have hmax := id.toInt_lt
  rw [toSize, Int64.toNat_toUInt64_of_le hnonneg, Int32.toNatClampNeg_toInt64]
  change id.toInt.toNat < 2 ^ 32
  omega

theorem small_of_numbered {t : ThreadIds} (h : t ∈ Numbered) :
    (toSize t.tid, toSize t.pid) ∈ Lib.Small := ⟨toNat_toSize_lt h.1, toNat_toSize_lt h.2⟩

/-- A tid is at least 1, and such a thread does not get the id from before the scheduler. -/
theorem getThreadId_ne_early {t t' : ThreadIds} (ht : t ∈ Numbered) (htid : t.tid ≠ 0) :
    getThreadId true t ≠ getThreadId false t' := by
  intro heq
  have hone := congrArg UInt64.toNat heq
  change (Lib.szudzik (toSize t.tid) (toSize t.pid)).toNat = Nat.pair 0 1 at hone
  rw [Lib.toNat_szudzik (small_of_numbered ht).1 (small_of_numbered ht).2] at hone
  have hzero : (toSize t.tid).toNat = (toSize 0).toNat := (Nat.pair_eq_pair.mp hone).1
  exact htid (toSize_injective (UInt64.toNat_inj.mp hzero))

end Ilobilix.Uacpi
