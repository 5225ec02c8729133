import OsProjects.Lib.ByteMemory

/-! # Records in a byte memory

A `Layout` says where the fields of a record lie.  Fields of one record are independent
(`get_set_field`), and so are the fields of two records that do not overlap
(`get_set_apart`). -/

namespace OsProjects

/-- Where the fields of a record of `size` bytes lie. -/
structure Layout (F : Type) where
  size : ℕ
  offset : F → ℕ
  width : F → ℕ
  fits : ∀ f, offset f + width f ≤ size
  disjoint : ∀ f g, f ≠ g → offset f + width f ≤ offset g ∨ offset g + width g ≤ offset f

namespace Layout

variable {F : Type} (L : Layout F) {m m' : Memory} {f g : F} {p q v : ℕ}

/-- The field `f` of the record at `p`. -/
@[irreducible] def get (m : Memory) (f : F) (p : ℕ) : ℕ := m.read (p + L.offset f) (L.width f)

/-- The memory after the field `f` of the record at `p` was set to `v`. -/
def set (m : Memory) (f : F) (p v : ℕ) : Memory := m.write (p + L.offset f) (L.width f) v

/-- Two records do not overlap. -/
def Apart (p q : ℕ) : Prop := p + L.size ≤ q ∨ q + L.size ≤ p

@[simp] theorem set_page : (L.set m f p v).page = m.page := rfl

theorem get_lt : L.get m f p < 256 ^ L.width f := by
  rw [get]
  exact m.read_lt _ _

/-- A field depends only on the bytes of its record. -/
theorem get_congr (h : ∀ x, p ≤ x → x < p + L.size → m'.byte x = m.byte x) :
    L.get m' f p = L.get m f p := by
  have := L.fits f
  rw [get, get]
  exact Memory.read_congr fun x h₁ h₂ => h x (by omega) (by omega)

theorem get_set_same (hv : v < 256 ^ L.width f) : L.get (L.set m f p v) f p = v := by
  rw [get, set, Memory.read_write_same, Nat.mod_eq_of_lt hv]

/-- Fields of one record are independent. -/
theorem get_set_field (h : f ≠ g) : L.get (L.set m f p v) g p = L.get m g p := by
  rw [get, get]
  apply Memory.read_write_of_disjoint
  obtain h | h := L.disjoint f g h <;> omega

/-- Fields of two records that do not overlap are independent. -/
theorem get_set_apart (h : L.Apart p q) : L.get (L.set m f p v) g q = L.get m g q := by
  rw [get, get]
  apply Memory.read_write_of_disjoint
  have h₁ := L.fits f
  have h₂ := L.fits g
  obtain h | h := h <;> omega

theorem get_set [DecidableEq F] (h : p = q ∨ L.Apart p q) (hv : v < 256 ^ L.width f) :
    L.get (L.set m f p v) g q = if f = g ∧ p = q then v else L.get m g q := by
  split
  next e =>
    obtain ⟨rfl, rfl⟩ := e
    exact L.get_set_same hv
  next e =>
    obtain rfl | h := h
    · exact L.get_set_field fun hfg => e ⟨hfg, rfl⟩
    · exact L.get_set_apart h

/-- A store into a record changes no byte outside of it. -/
theorem set_byte (h : q < p ∨ p + L.size ≤ q) : (L.set m f p v).byte q = m.byte q := by
  have := L.fits f
  exact Memory.write_byte_of_not_mem m v (by omega)

end Layout

end OsProjects
