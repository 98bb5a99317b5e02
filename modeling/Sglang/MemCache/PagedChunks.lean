import Sglang.Lib.Runs
import Sglang.MemCache.Allocator

/-!
# A Row in Chunks

A request that is prefilled in chunks, and then decoded token by token, calls `alloc_extend` and
`alloc_decode` with the last slot of its row so far. The slots are those of one `alloc_extend` of
the whole row.
-/

namespace Sglang.MemCache.Allocator

open List
open Lib

/-- The next tokens of a request: a chunk of the prefill that ends at a length, or a decoded
token. -/
inductive Chunk where
  | extend (seqLen : Nat)
  | decode

def Chunk.seqLen (n : Nat) : Chunk → Nat
  | .extend seqLen => seqLen
  | .decode => n + 1

/-- The allocator and the row of a request after a chunk; `none` if there are not enough pages. -/
def growRow (cfg : PoolConfig) (s : Allocator × List Nat) (c : Chunk) : Option
    (Allocator × List Nat) :=
  let reqs := [⟨s.2.length, c.seqLen s.2.length, lastLoc s.2⟩]
  let r := match c with
    | .extend _ => s.1.allocExtend cfg reqs
    | .decode => s.1.allocDecode cfg reqs
  r.2.map fun out => (r.1, s.2 ++ out.flatten)

/-- A chunk ends no earlier than the row. The kernel that decodes starts a page where the length is
1 modulo the page size, which is never so for pages of one slot. -/
def Chunk.Grows (cfg : PoolConfig) (n : Nat) : Chunk → Prop
  | .extend seqLen => n ≤ seqLen
  | .decode => 1 < cfg.pageSize

instance (cfg : PoolConfig) (n : Nat) : DecidablePred (Chunk.Grows cfg n)
  | .extend _ => inferInstanceAs (Decidable (_ ≤ _))
  | .decode => inferInstanceAs (Decidable (_ < _))

/-- The lengths that the chunks reach one after the other do not shrink. -/
def Growing (cfg : PoolConfig) (n : Nat) (chunks : List Chunk) : Prop :=
  Along (fun n c => some (Chunk.seqLen n c)) (Chunk.Grows cfg) n chunks

/-- A row over its old pages and as many new ones as its length takes. -/
def grownRow (cfg : PoolConfig) (a : Allocator) (pgs : List Nat) (n : Nat) : Option
    (Allocator × List Nat) :=
  let k := pageCount cfg.pageSize n - pgs.length
  if k > a.freePages.length then none
  else some ({ a with freePages := a.freePages.drop k },
    rowOf cfg.pageSize (pgs ++ a.freePages.take k) n)

variable {cfg : PoolConfig} {a : Allocator} {row pgs : List Nat} {m n : Nat}

theorem mergeFor_of_merged (hmerged : cfg.needSort = false ∨ a.releasePages = []) (need : Nat) :
    a.mergeFor cfg need = a := by
  unfold mergeFor mergeAndSortFree
  rcases hmerged with h | h <;> simp [h]

theorem growRow_extend (hmerged : cfg.needSort = false ∨ a.releasePages = [])
    (h : RowPages cfg.pageSize row pgs) (hle : row.length ≤ n) : growRow cfg (a, row)
    (.extend n) = grownRow cfg a pgs n := by
  have hnew : ExtendReq.newPages cfg.pageSize ⟨row.length, n, lastLoc row⟩ =
      pageCount cfg.pageSize n - pgs.length := by
    rw [ExtendReq.newPages, h.count]
  have hrow := fun newPgs =>
    extendSlots_row (r := ⟨row.length, n, lastLoc row⟩) newPgs cfg.pageSize_pos h rfl hle rfl
  simp only [growRow, grownRow, allocExtend, Chunk.seqLen, mergeFor_of_merged hmerged,
    getNumNewPages, perRequest, map_cons, map_nil, sum_cons, sum_nil, Nat.add_zero, hnew]
  split
  · rfl
  · simp only [Option.map_some, flatten_singleton, hrow]

theorem growRow_decode (hmerged : cfg.needSort = false ∨ a.releasePages = [])
    (hps : 1 < cfg.pageSize) :
    growRow cfg (a, row) .decode = growRow cfg (a, row) (.extend (row.length + 1)) := by
  have hslot :=
    fun newPgs => decodeSlot_eq (r := ⟨row.length, row.length + 1, lastLoc row⟩) hps rfl newPgs
  simp only [growRow, allocDecode, allocExtend, Chunk.seqLen, mergeFor_of_merged hmerged,
    getNumNewPages, getNumNewPagesDecode, map_cons, map_nil, perRequest, (hslot _).1, (hslot []).2]

theorem Chunk.Grows.le {c : Chunk} (h : c.Grows cfg n) : n ≤ c.seqLen n := by
  cases c with
  | extend seqLen => exact h
  | decode => exact Nat.le_succ _

theorem Growing.le {chunks : List Chunk} (h : Growing cfg n chunks) :
    n ≤ chunks.foldl Chunk.seqLen n := by
  induction chunks generalizing n with
  | nil => exact le_rfl
  | cons c chunks ih => exact h.1.le.trans (ih h.2)

theorem grownRow_bind (hlen : pgs.length ≤ pageCount cfg.pageSize m) (hle : m ≤ n) :
    (if pageCount cfg.pageSize m - pgs.length > a.freePages.length then none
      else grownRow cfg
        { a with freePages := a.freePages.drop (pageCount cfg.pageSize m - pgs.length) }
        (pgs ++ a.freePages.take (pageCount cfg.pageSize m - pgs.length)) n) =
          grownRow cfg a pgs n := by
  have hmono : pageCount cfg.pageSize m ≤ pageCount cfg.pageSize n :=
    Nat.div_le_div_right (by omega)
  unfold grownRow
  split
  · next hfew => rw [if_pos (by omega)]
  · next hmany =>
    have hk : pageCount cfg.pageSize n -
      (pgs ++ a.freePages.take (pageCount cfg.pageSize m - pgs.length)).length =
        pageCount cfg.pageSize n - pageCount cfg.pageSize m := by
      rw [length_append, length_take]
      omega
    have hsum : pageCount cfg.pageSize n - pgs.length =
        pageCount cfg.pageSize m - pgs.length +
        (pageCount cfg.pageSize n - pageCount cfg.pageSize m) := by omega
    simp only [hk, hsum, length_drop, drop_drop, append_assoc, take_add]
    by_cases hfew : pageCount cfg.pageSize n - pageCount cfg.pageSize m >
        a.freePages.length - (pageCount cfg.pageSize m - pgs.length)
    · rw [if_pos hfew, if_pos (by omega)]
    · rw [if_neg hfew, if_neg (by omega)]

/-- However a row is cut into chunks and decoded tokens, it gets the slots and leaves the pages of
one `alloc_extend` to its length, or they run out of pages as that one does. -/
theorem growRow_chunks (hmerged : cfg.needSort = false ∨ a.releasePages = [])
    (h : RowPages cfg.pageSize row pgs) {chunks : List Chunk}
    (hgrows : Growing cfg row.length chunks) :
    run (growRow cfg) (a, row) chunks =
      growRow cfg (a, row) (.extend (chunks.foldl Chunk.seqLen row.length)) := by
  rw [growRow_extend hmerged h hgrows.le]
  induction chunks generalizing a row pgs with
  | nil =>
    rw [run, foldl_nil, grownRow, h.count, Nat.sub_self, if_neg (by omega)]
    rw [take_zero, append_nil, drop_zero, ← h.row_eq]
  | cons c chunks ih =>
    have hle := hgrows.1.le
    have hone : growRow cfg (a, row) c = grownRow cfg a pgs (c.seqLen row.length) := by
      cases c with
      | extend n => exact growRow_extend hmerged h hle
      | decode => exact (growRow_decode hmerged hgrows.1).trans (growRow_extend hmerged h hle)
    have hlen : pgs.length ≤ pageCount cfg.pageSize (c.seqLen row.length) := by
      rw [h.count]
      exact Nat.div_le_div_right (by omega)
    rw [run, hone, foldl_cons, ← grownRow_bind hlen (Growing.le hgrows.2)]
    conv_lhs => rw [grownRow]
    set k := pageCount cfg.pageSize (c.seqLen row.length) - pgs.length with hk
    split
    · rfl
    · next hmany =>
      have hrow : (rowOf cfg.pageSize (pgs ++ a.freePages.take k) (c.seqLen row.length)).length =
          c.seqLen row.length :=
        rowOf_length _
      have hpages : RowPages cfg.pageSize
        (rowOf cfg.pageSize (pgs ++ a.freePages.take k) (c.seqLen row.length))
          (pgs ++ a.freePages.take k) := by
        refine ⟨by rw [hrow], ?_⟩
        rw [hrow, length_append, length_take]
        omega
      have hrest :=
        ih (a := { a with freePages := a.freePages.drop k }) hmerged hpages
        (by rw [hrow]; exact hgrows.2)
      rwa [hrow] at hrest

def chunkConfig : PoolConfig where
  kind := .paged
  size := 40
  pageSize := 4
  pageSize_pos := by decide
  token_page := by decide

/-- A prompt of 7 tokens in two chunks, and three decoded tokens. -/
theorem growRow_chunks_three :
    run (growRow chunkConfig) (clear chunkConfig, [])
    [.extend 3, .extend 7, .decode, .decode, .decode] = growRow chunkConfig (clear chunkConfig, [])
    (.extend 10) :=
  growRow_chunks (.inl rfl) RowPages.nil (by unfold Growing; decide)

end Sglang.MemCache.Allocator
