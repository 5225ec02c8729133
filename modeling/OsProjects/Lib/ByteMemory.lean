import Mathlib.Tactic.Ring
import Mathlib.Data.Nat.Basic

/-! # A byte memory behind a page table

`Memory` is a byte for every address and a bit for every page that tells whether the page
is mapped.  Words are little endian.  A store never changes the page table, and a read
depends only on the bytes of its own range (`read_congr`): every frame fact of a client is
an instance of these two. -/

namespace OsProjects

/-- Bytes in a page. -/
def pageSize : ℕ := 4096

/-- The first page that starts at or above `a`. -/
def pageCeil (a : ℕ) : ℕ := (a + pageSize - 1) / pageSize

/-- A byte for every address and a bit for every page. -/
structure Memory where
  byte : ℕ → UInt8
  page : ℕ → Bool

namespace Memory

/-- All pages that `[a, a + n)` touches are mapped. -/
def accessible (m : Memory) (a n : ℕ) : Bool :=
  n = 0 || (List.range' (a / pageSize) ((a + n - 1) / pageSize - a / pageSize + 1)).all m.page

/-- The little-endian word of `w` bytes at `a`. -/
def read (m : Memory) (a : ℕ) : ℕ → ℕ
  | 0 => 0
  | w + 1 => (m.byte a).toNat + 256 * m.read (a + 1) w

/-- Store the low `w` bytes of `v` at `a`. -/
def write (m : Memory) (a w v : ℕ) : Memory where
  byte x := if a ≤ x ∧ x < a + w then UInt8.ofNat (v / 256 ^ (x - a)) else m.byte x
  page := m.page

/-- Copy `n` bytes from `src` to `dst`; the ranges may overlap. -/
def copy (m : Memory) (dst src n : ℕ) : Memory where
  byte x := if dst ≤ x ∧ x < dst + n then m.byte (src + (x - dst)) else m.byte x
  page := m.page

/-- Set the `n` bytes from `a` on to `b`. -/
def fill (m : Memory) (a n : ℕ) (b : UInt8) : Memory where
  byte x := if a ≤ x ∧ x < a + n then b else m.byte x
  page := m.page

/-- Map or unmap the pages from `lo` up to `hi`. -/
def setPages (m : Memory) (lo hi : ℕ) (b : Bool) : Memory where
  byte := m.byte
  page p := if lo ≤ p ∧ p < hi then b else m.page p

/-- Some page from `lo` up to `hi` is mapped. -/
def anyMapped (m : Memory) (lo hi : ℕ) : Bool := (List.range' lo (hi - lo)).any m.page

@[simp] theorem write_page (m : Memory) (a w v : ℕ) : (m.write a w v).page = m.page := rfl
@[simp] theorem copy_page (m : Memory) (d s n : ℕ) : (m.copy d s n).page = m.page := rfl
@[simp] theorem fill_page (m : Memory) (a n : ℕ) (b : UInt8) : (m.fill a n b).page = m.page := rfl
@[simp] theorem setPages_byte (m : Memory) (lo hi : ℕ) (b : Bool) :
    (m.setPages lo hi b).byte = m.byte := rfl

/-! ### Words -/

theorem read_lt (m : Memory) (a w : ℕ) : m.read a w < 256 ^ w := by
  induction w generalizing a with
  | zero => simp [read]
  | succ w ih =>
      have h₁ := ih (a + 1)
      have h₂ := (m.byte a).toNat_lt
      rw [read, pow_succ]
      omega

/-- A read depends only on the bytes of its range. -/
theorem read_congr {m m' : Memory} {a w : ℕ}
    (h : ∀ x, a ≤ x → x < a + w → m'.byte x = m.byte x) : m'.read a w = m.read a w := by
  induction w generalizing a with
  | zero => rfl
  | succ w ih =>
      rw [read, read, h a (by omega) (by omega), ih fun x h₁ h₂ => h x (by omega) (by omega)]

theorem write_byte_of_not_mem (m : Memory) {a w x : ℕ} (v : ℕ) (h : x < a ∨ a + w ≤ x) :
    (m.write a w v).byte x = m.byte x := if_neg (by omega)

/-- The bytes of a word that lie behind its first byte are the bytes of the quotient. -/
theorem write_succ_byte (m : Memory) {a w x : ℕ} (v : ℕ) (h₁ : a + 1 ≤ x) (h₂ : x < a + 1 + w) :
    (m.write a (w + 1) v).byte x = (m.write (a + 1) w (v / 256)).byte x := by
  have hx : x - a = (x - (a + 1)) + 1 := by omega
  simp only [write]
  rw [if_pos (by omega), if_pos (by omega), hx, pow_succ', Nat.div_div_eq_div_mul]

theorem read_write_same (m : Memory) (a w v : ℕ) :
    (m.write a w v).read a w = v % 256 ^ w := by
  induction w generalizing a v with
  | zero => simp [read, Nat.mod_one]
  | succ w ih =>
      have hb : ((m.write a (w + 1) v).byte a).toNat = v % 256 := by
        simp [write]
      rw [read, hb, read_congr fun x h₁ h₂ => write_succ_byte m v h₁ h₂, ih, pow_succ',
        Nat.mod_mul]

theorem read_write_of_disjoint (m : Memory) {a w b n : ℕ} (v : ℕ) (h : a + w ≤ b ∨ b + n ≤ a) :
    (m.write a w v).read b n = m.read b n :=
  read_congr fun x h₁ h₂ => write_byte_of_not_mem m v (by omega)

theorem copy_byte_of_not_mem (m : Memory) {d s n x : ℕ} (h : x < d ∨ d + n ≤ x) :
    (m.copy d s n).byte x = m.byte x := if_neg (by omega)

theorem fill_byte_of_not_mem (m : Memory) {a n x : ℕ} (b : UInt8) (h : x < a ∨ a + n ≤ x) :
    (m.fill a n b).byte x = m.byte x := if_neg (by omega)

/-! ### Pages -/

theorem accessible_iff (m : Memory) (a n : ℕ) :
    m.accessible a n = true ↔ ∀ x, a ≤ x → x < a + n → m.page (x / pageSize) = true := by
  unfold accessible
  constructor
  · intro h x hx hn
    rw [Bool.or_eq_true, decide_eq_true_eq, List.all_eq_true] at h
    rcases h with rfl | h
    · omega
    · refine h _ ?_
      have h₁ : a / pageSize ≤ x / pageSize := Nat.div_le_div_right hx
      have h₂ : x / pageSize ≤ (a + n - 1) / pageSize := Nat.div_le_div_right (by omega)
      rw [List.mem_range'_1]
      omega
  · intro h
    rcases Nat.eq_zero_or_pos n with rfl | hn
    · simp
    · rw [Bool.or_eq_true, List.all_eq_true]
      refine Or.inr fun p hp => ?_
      rw [List.mem_range'_1] at hp
      -- the first address of the range that lies in page `p`
      have hpos : 0 < pageSize := by decide
      have hq : max a (p * pageSize) / pageSize = p := by
        rcases le_total a (p * pageSize) with hle | hle
        · rw [max_eq_right hle, Nat.mul_div_cancel _ hpos]
        · rw [max_eq_left hle]
          exact le_antisymm (by omega) ((Nat.le_div_iff_mul_le hpos).mpr hle)
      have hdiv : a / pageSize ≤ (a + n - 1) / pageSize := Nat.div_le_div_right (by omega)
      have hlt : p * pageSize ≤ a + n - 1 := (Nat.le_div_iff_mul_le hpos).mp (by omega)
      have := h (max a (p * pageSize)) (le_max_left _ _) (by omega)
      rwa [hq] at this

theorem accessible_of_page_eq {m m' : Memory} (h : m'.page = m.page) (a n : ℕ) :
    m'.accessible a n = m.accessible a n := by
  unfold accessible; rw [h]

end Memory

end OsProjects
