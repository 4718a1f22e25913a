import Mathlib.Data.List.Perm.Basic
import Mathlib.Order.Interval.Finset.Nat

/-!
# memory_pool1.cpp

`MemoryPool` and a client that gives back only what it holds. A block is the offset of
its first byte in `pool_`, and `size_t` arithmetic is that of `UInt64`.

What the client holds and what is free are always the blocks of the constructor, in some
order (`Accounts`); the bytes of two of these are apart as long as `blockSize * numBlocks`
does not wrap around. Where it does, the constructor puts blocks on its list that `pool_` has
no room for (`laid_out_iff`).
-/

namespace CppDemos

/-- `pool_` is left out but for its size. -/
structure MemoryPool where
  blockSize : UInt64
  numBlocks : UInt64
  poolSize : UInt64
  freeList : List UInt64
deriving DecidableEq, Repr

namespace MemoryPool

/-! ## Definitions -/

/-- The loop of the constructor: `freeList_` after so many turns. -/
def initFreeList (blockSize : UInt64) : Nat → List UInt64
  | 0 => []
  | i + 1 => initFreeList blockSize i ++ [UInt64.ofNat i * blockSize]

/-- The constructor, when it returns. It does not where a vector throws `length_error`: for
`pool_` if the product modulo `2 ^ 64` is `2 ^ 63` or more, for `freeList_` if there are
`2 ^ 60` blocks or more. -/
def construct (blockSize numBlocks : UInt64) : MemoryPool where
  blockSize := blockSize
  numBlocks := numBlocks
  poolSize := blockSize * numBlocks
  freeList := initFreeList blockSize numBlocks.toNat

/-- `allocate`; `none` is `nullptr`. -/
def allocate (p : MemoryPool) : Option UInt64 × MemoryPool :=
  match p.freeList.getLast? with
  | none => (none, p)
  | some block => (some block, { p with freeList := p.freeList.dropLast })

def deallocate (p : MemoryPool) (block : UInt64) : MemoryPool :=
  { p with freeList := p.freeList ++ [block] }

def bytes (blockSize block : UInt64) : Finset Nat :=
  Finset.Ico block.toNat (block.toNat + blockSize.toNat)

/-! ## The blocks of the constructor -/

variable {blockSize numBlocks : UInt64} {p : MemoryPool}

theorem length_initFreeList (blockSize : UInt64) :
    ∀ n : Nat, (initFreeList blockSize n).length = n
  | 0 => rfl
  | n + 1 => by
      rw [initFreeList, List.length_append, length_initFreeList blockSize n, List.length_singleton]

theorem map_initFreeList :
    ∀ {n : Nat}, blockSize.toNat * n < 2 ^ 64 → n < 2 ^ 64 →
      (initFreeList blockSize n).map UInt64.toNat
        = (List.range n).map fun i => i * blockSize.toNat
  | 0, _, _ => rfl
  | n + 1, hfit, hn => by
      have hless : blockSize.toNat * n ≤ blockSize.toNat * (n + 1) :=
        Nat.mul_le_mul_left _ n.le_succ
      have hoffset : (UInt64.ofNat n * blockSize).toNat = n * blockSize.toNat := by
        rw [UInt64.toNat_mul, UInt64.toNat_ofNat', Nat.mod_eq_of_lt (Nat.lt_of_succ_lt hn),
          Nat.mod_eq_of_lt (by rw [Nat.mul_comm]; omega)]
      rw [initFreeList, List.map_append, map_initFreeList (by omega) (by omega), List.map_singleton,
        hoffset, List.range_succ, List.map_append, List.map_singleton]

theorem bytes_disjoint {a b : UInt64} {i j : Nat} (ha : a.toNat = i * blockSize.toNat)
    (hb : b.toNat = j * blockSize.toNat) (hlt : i < j) :
    Disjoint (bytes blockSize a) (bytes blockSize b) := by
  have hstep : (i + 1) * blockSize.toNat ≤ j * blockSize.toNat := Nat.mul_le_mul_right _ hlt
  rw [Nat.succ_mul] at hstep
  rw [bytes, bytes, ha, hb]
  refine Finset.disjoint_left.mpr fun k hk hk' => ?_
  have hend := (Finset.mem_Ico.mp hk).2
  have hstart := (Finset.mem_Ico.mp hk').1
  omega

theorem pairwise_initFreeList {n : Nat} (hfit : blockSize.toNat * n < 2 ^ 64) (hn : n < 2 ^ 64) :
    (initFreeList blockSize n).Pairwise
      fun a b => Disjoint (bytes blockSize a) (bytes blockSize b) := by
  have hmap := map_initFreeList hfit hn
  refine List.pairwise_iff_getElem.mpr fun i j hi hj hlt => ?_
  have hat (k : Nat) (hk : k < (initFreeList blockSize n).length) :
      (initFreeList blockSize n)[k].toNat = k * blockSize.toNat := by
    have hget := congrArg (·[k]?) hmap
    simp only [List.getElem?_map, List.getElem?_eq_getElem hk, Option.map_some] at hget
    rw [List.getElem?_range (length_initFreeList blockSize n ▸ hk)] at hget
    exact Option.some.inj hget
  exact bytes_disjoint (hat i hi) (hat j hj) hlt

theorem bytes_inside (hfit : blockSize.toNat * numBlocks.toNat < 2 ^ 64) {b : UInt64}
    (hb : b ∈ initFreeList blockSize numBlocks.toNat) :
    bytes blockSize b ⊆ Finset.range (construct blockSize numBlocks).poolSize.toNat := by
  have hsize : (construct blockSize numBlocks).poolSize.toNat
      = blockSize.toNat * numBlocks.toNat := by
    rw [construct, UInt64.toNat_mul, Nat.mod_eq_of_lt hfit]
  have hmem : b.toNat ∈ (initFreeList blockSize numBlocks.toNat).map UInt64.toNat :=
    List.mem_map_of_mem hb
  rw [map_initFreeList hfit numBlocks.toNat_lt] at hmem
  obtain ⟨i, hi, hoffset⟩ := List.mem_map.mp hmem
  have hend : (i + 1) * blockSize.toNat ≤ numBlocks.toNat * blockSize.toNat :=
    Nat.mul_le_mul_right _ (List.mem_range.mp hi)
  rw [Nat.succ_mul, Nat.mul_comm numBlocks.toNat] at hend
  intro k hk
  have hlt := (Finset.mem_Ico.mp hk).2
  rw [Finset.mem_range, hsize]
  omega

/-! ## What the constructor lays out -/

theorem length_mul_le_card :
    ∀ {blocks : List UInt64} {T : Finset Nat}, (∀ b ∈ blocks, bytes blockSize b ⊆ T) →
      blocks.Pairwise (fun a b => Disjoint (bytes blockSize a) (bytes blockSize b)) →
      blocks.length * blockSize.toNat ≤ T.card
  | [], _, _, _ => by simp
  | a :: blocks, T, hinside, hpairwise => by
      obtain ⟨hfirst, hrest⟩ := List.pairwise_cons.mp hpairwise
      have ha : bytes blockSize a ⊆ T := hinside a (List.mem_cons_self ..)
      have hothers : ∀ b ∈ blocks, bytes blockSize b ⊆ T \ bytes blockSize a := fun b hb =>
        Finset.subset_sdiff.mpr ⟨hinside b (List.mem_cons_of_mem _ hb), (hfirst b hb).symm⟩
      have hcard : (bytes blockSize a).card = blockSize.toNat := by simp [bytes]
      have hle := length_mul_le_card hothers hrest
      have hroom := Finset.card_le_card ha
      rw [Finset.card_sdiff_of_subset ha, hcard] at hle
      rw [hcard] at hroom
      rw [List.length_cons, Nat.succ_mul]
      omega

theorem nodup_of_pairwise (hsize : 1 ≤ blockSize.toNat) {blocks : List UInt64}
    (h : blocks.Pairwise fun a b => Disjoint (bytes blockSize a) (bytes blockSize b)) :
    blocks.Nodup := by
  refine h.imp fun {a b} hdisjoint heq => ?_
  subst heq
  have hfirst : a.toNat ∈ bytes blockSize a := Finset.mem_Ico.mpr ⟨le_rfl, by omega⟩
  exact Finset.disjoint_left.mp hdisjoint hfirst hfirst

theorem initFreeList_zero : ∀ n : Nat, initFreeList 0 n = List.replicate n 0
  | 0 => rfl
  | n + 1 => by rw [initFreeList, initFreeList_zero n, List.replicate_succ', UInt64.mul_zero]

/-- There are `numBlocks` blocks, distinct, in `pool_` and apart from each other. -/
structure LaidOut (p : MemoryPool) : Prop where
  length : p.freeList.length = p.numBlocks.toNat
  inside : ∀ b ∈ p.freeList, bytes p.blockSize b ⊆ Finset.range p.poolSize.toNat
  disjoint : p.freeList.Pairwise fun a b =>
    Disjoint (bytes p.blockSize a) (bytes p.blockSize b)
  distinct : p.freeList.Nodup

end MemoryPool

open MemoryPool in
/-- The constructor lays out its blocks exactly if the product of its arguments does not wrap
around and it is not for several blocks of no bytes. -/
theorem laid_out_iff (blockSize numBlocks : UInt64) :
    (construct blockSize numBlocks).LaidOut ↔
      blockSize.toNat * numBlocks.toNat < 2 ^ 64 ∧ (1 ≤ blockSize.toNat ∨ numBlocks.toNat ≤ 1) := by
  have hlength : (initFreeList blockSize numBlocks.toNat).length = numBlocks.toNat :=
    length_initFreeList ..
  constructor
  · intro h
    constructor
    · have hle := length_mul_le_card h.inside h.disjoint
      have hlt := (construct blockSize numBlocks).poolSize.toNat_lt
      rw [Finset.card_range, h.length] at hle
      exact (Nat.mul_comm .. ▸ hle).trans_lt hlt
    · by_contra hnot
      obtain ⟨hempty, hseveral⟩ := not_or.mp hnot
      have hzero : blockSize = 0 := UInt64.toNat_inj.mp (by simpa using hempty)
      have hdistinct : (initFreeList blockSize numBlocks.toNat).Nodup := h.distinct
      rw [hzero, initFreeList_zero, List.nodup_replicate] at hdistinct
      exact hseveral hdistinct
  · rintro ⟨hfit, hsize⟩
    have hdisjoint := pairwise_initFreeList hfit numBlocks.toNat_lt
    refine ⟨hlength, fun b hb => bytes_inside hfit hb, hdisjoint, ?_⟩
    rcases hsize with hsize | hfew
    · exact nodup_of_pairwise hsize hdisjoint
    · show (initFreeList blockSize numBlocks.toNat).Nodup
      match hlist : initFreeList blockSize numBlocks.toNat with
      | [] => exact List.nodup_nil
      | [b] => exact List.nodup_singleton b
      | _ :: _ :: _ =>
          rw [hlist] at hlength
          simp only [List.length_cons] at hlength
          omega

/-- Two blocks of 2^63 bytes, in a `pool_` of none. -/
theorem wrapped_not_laid_out : ¬ (MemoryPool.construct 0x8000000000000000 2).LaidOut := by
  intro h
  have hle := MemoryPool.length_mul_le_card h.inside h.disjoint
  have hempty : (MemoryPool.construct 0x8000000000000000 2).poolSize.toNat = 0 := by
    decide +kernel
  have hsize : (MemoryPool.construct 0x8000000000000000 2).blockSize.toNat =
      0x8000000000000000 := by decide +kernel
  have htwo : (MemoryPool.construct 0x8000000000000000 2).numBlocks.toNat = 2 := rfl
  rw [h.length, htwo, hsize, hempty, Finset.card_range] at hle
  omega

/-! ## Runs -/

inductive PoolCall where
  | allocate
  | deallocate (block : UInt64)
deriving DecidableEq, Repr

/-- The pool, and the blocks that the client holds. -/
structure PoolClient where
  pool : MemoryPool
  held : List UInt64
deriving DecidableEq, Repr

namespace PoolClient

def initial (blockSize numBlocks : UInt64) : PoolClient where
  pool := .construct blockSize numBlocks
  held := []

def call (c : PoolClient) : PoolCall → PoolClient
  | .allocate =>
      let (block, pool) := c.pool.allocate
      { pool := pool, held := c.held ++ block.toList }
  | .deallocate block => { pool := c.pool.deallocate block, held := c.held.erase block }

/-- Only what is held is given back. -/
def Allowed (c : PoolClient) : PoolCall → Prop
  | .allocate => True
  | .deallocate block => block ∈ c.held

instance (c : PoolClient) : (call : PoolCall) → Decidable (c.Allowed call)
  | .allocate => inferInstanceAs (Decidable True)
  | .deallocate block => inferInstanceAs (Decidable (block ∈ c.held))

def run (c : PoolClient) : List PoolCall → PoolClient
  | [] => c
  | call :: calls => (c.call call).run calls

def AllowedAll (c : PoolClient) : List PoolCall → Prop
  | [] => True
  | call :: calls => c.Allowed call ∧ (c.call call).AllowedAll calls

/-- What is held and what is free, put together, are these blocks. -/
def Accounts (c : PoolClient) (blocks : List UInt64) : Prop :=
  (c.held ++ c.pool.freeList).Perm blocks

variable {c : PoolClient} {blocks : List UInt64}

theorem Accounts.call (hc : c.Accounts blocks) {call : PoolCall} (hcall : c.Allowed call) :
    (c.call call).Accounts blocks := by
  cases call with
  | allocate =>
      refine List.Perm.trans ?_ hc
      cases hlast : c.pool.freeList.getLast? with
      | none =>
          simp only [PoolClient.call, MemoryPool.allocate, hlast, Option.toList_none,
            List.append_nil]
          exact .refl _
      | some block =>
          obtain ⟨rest, hrest⟩ := List.getLast?_eq_some_iff.mp hlast
          simp only [PoolClient.call, MemoryPool.allocate, hlast, Option.toList_some]
          rw [hrest, List.dropLast_concat, List.append_assoc]
          exact List.Perm.append_left _ List.perm_append_comm
  | deallocate block =>
      refine List.Perm.trans ?_ hc
      show (c.held.erase block ++ (c.pool.freeList ++ [block])).Perm _
      rw [← List.append_assoc]
      refine List.perm_append_comm.trans ?_
      exact ((List.perm_cons_erase hcall).append_right c.pool.freeList).symm

theorem Accounts.run :
    ∀ (calls : List PoolCall) {c : PoolClient}, c.Accounts blocks → c.AllowedAll calls →
      (c.run calls).Accounts blocks
  | [], _, hc, _ => hc
  | _ :: calls, _, hc, hall => Accounts.run calls (hc.call hall.1) hall.2

theorem allocate_eq_none_iff (c : PoolClient) :
    c.pool.allocate.1 = none ↔ c.pool.freeList = [] := by
  unfold MemoryPool.allocate
  rw [← List.getLast?_eq_none_iff]
  cases c.pool.freeList.getLast? with
  | none => exact iff_of_true rfl rfl
  | some block => exact iff_of_false (fun h => by cases h) fun h => by cases h

end PoolClient

open MemoryPool PoolClient

/-- After any calls of the client, and so after every step of a run: what is held and what is
free are the starts of the `numBlocks` blocks, in some order; the blocks that are held have
their bytes to themselves and in `pool_`; and `allocate` returns `nullptr` exactly if all
are held. -/
theorem blocks_handed_out_once {blockSize numBlocks : UInt64}
    (hfit : blockSize.toNat * numBlocks.toNat < 2 ^ 64) {calls : List PoolCall}
    (h : (initial blockSize numBlocks).AllowedAll calls) :
    let c := (initial blockSize numBlocks).run calls
    ((c.held ++ c.pool.freeList).map UInt64.toNat).Perm
        ((List.range numBlocks.toNat).map fun i => i * blockSize.toNat) ∧
      c.held.Pairwise (fun a b => Disjoint (bytes blockSize a) (bytes blockSize b)) ∧
      (∀ b ∈ c.held, bytes blockSize b ⊆
        Finset.range (construct blockSize numBlocks).poolSize.toNat) ∧
      (c.pool.allocate.1 = none ↔ c.held.length = numBlocks.toNat) := by
  have hstart : (initial blockSize numBlocks).Accounts
      (initFreeList blockSize numBlocks.toNat) := List.Perm.refl _
  have hend := hstart.run calls h
  have hlt := numBlocks.toNat_lt
  refine ⟨?_, ?_, fun b hb => ?_, ?_⟩
  · rw [← map_initFreeList hfit hlt]
    exact hend.map UInt64.toNat
  · have hall := (hend.pairwise_iff fun hab => Disjoint.symm hab).mpr
      (pairwise_initFreeList hfit hlt)
    exact (List.pairwise_append.mp hall).1
  · exact bytes_inside hfit (hend.subset (List.mem_append_left _ hb))
  · have hlength := hend.length_eq
    rw [List.length_append, length_initFreeList] at hlength
    rw [allocate_eq_none_iff, ← List.length_eq_zero_iff]
    omega

def mainCalls : List PoolCall := [.allocate, .allocate, .deallocate 576, .deallocate 512]

theorem mainCalls_allowed : (initial 64 10).AllowedAll mainCalls :=
  ⟨trivial, trivial, by decide, by decide, trivial⟩

theorem blocks_handed_out_once_main :
    let c := (initial 64 10).run mainCalls
    ((c.held ++ c.pool.freeList).map UInt64.toNat).Perm
        ((List.range (10 : UInt64).toNat).map fun i => i * (64 : UInt64).toNat) ∧
      c.held.Pairwise (fun a b => Disjoint (bytes 64 a) (bytes 64 b)) ∧
      (∀ b ∈ c.held, bytes 64 b ⊆ Finset.range (construct 64 10).poolSize.toNat) ∧
      (c.pool.allocate.1 = none ↔ c.held.length = (10 : UInt64).toNat) :=
  blocks_handed_out_once (by decide) mainCalls_allowed

end CppDemos
