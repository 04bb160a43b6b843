import Auos.Kernel

/-!
# ACPI tables

The MADT walk of the kernel's `acpi.c`. A table is a pointer into memory, and so is an entry. The walk
advances by whatever length an entry names, so it is cut off by `fuel`; on a table whose walk ends it
calls the handler once for every entry of the type it looks for, in the order of the table.

## Main definitions

* `acpiParseMadt` — the source, for any state a handler may change
* `MadtWalk` — the entries a walk visits
* `MadtEntry`, `madtArea` — entries as the format encodes them, and the area they fill
* `madtPointers` — where the entries of one type start

## Main results

* `acpiParseMadt_eq` — the walk is a fold over the entries of one type
* `madtWalk_of_stored` — a stored area is walked entry by entry
* `acpiParseMadt_stored` — parsing a stored table
-/

namespace Auos

variable {σ : Type*} {mem : Memory} {tbl type fuel hdr endAddr : ℕ} {l : List ℕ}
  {handler : σ → ℕ → Option σ}

/-- `MADT_IO_APIC`. -/
abbrev madtIoApic : ℕ := 1

/-- `MADT_ISA_SOURCE`. -/
abbrev madtIsaSource : ℕ := 2

/-- `sizeof(struct acpi_madt)`. -/
abbrev sizeofAcpiMadt : ℕ := 44

/-- The `type` of an entry. -/
def madtType (mem : Memory) (header : ℕ) : ℕ := (mem header).toNat

/-- The `length` of an entry. -/
def madtLength (mem : Memory) (header : ℕ) : ℕ := (mem (wadd header 1)).toNat

/-- The end of the table by its `header.length`. -/
def madtEnd (mem : Memory) (tbl : ℕ) : ℕ := wadd tbl (readLE mem (wadd tbl 4) 4)

/-- The loop of `acpi_parse_madt`, cut off after `fuel` rounds: the state the handler leaves and the
count. The handler stops in `panic` where it is `none`. -/
def acpiParseMadtLoop (mem : Memory) (endAddr type : ℕ) (handler : σ → ℕ → Option σ) :
    ℕ → ℕ → σ → ℕ → Option (σ × ℕ)
  | 0, _, _, _ => none
  | fuel + 1, hdr, s, count =>
    if hdr < endAddr then
      let header := hdr
      let hdr := wadd hdr (madtLength mem header)
      if madtType mem header = type then do
        let s ← handler s header
        acpiParseMadtLoop mem endAddr type handler fuel hdr s (count + 1)
      else acpiParseMadtLoop mem endAddr type handler fuel hdr s count
    else some (s, count)

/-- `acpi_parse_madt`, on the table `acpi_table_find` has found. -/
def acpiParseMadt (mem : Memory) (tbl type : ℕ) (handler : σ → ℕ → Option σ) (fuel : ℕ) (s : σ) :
    Option (σ × ℕ) :=
  acpiParseMadtLoop mem (madtEnd mem tbl) type handler fuel (wadd tbl sizeofAcpiMadt) s 0

/-- The walk from `hdr` visits the entries `l` and ends. -/
def MadtWalk (mem : Memory) (endAddr : ℕ) : ℕ → List ℕ → Prop
  | hdr, [] => endAddr ≤ hdr
  | hdr, p :: l => p = hdr ∧ hdr < endAddr ∧ MadtWalk mem endAddr (wadd hdr (madtLength mem hdr)) l

/-- The entries of one type. -/
def madtEntries (mem : Memory) (type : ℕ) (l : List ℕ) : List ℕ :=
  l.filter fun p => decide (madtType mem p = type)

theorem acpiParseMadtLoop_eq (h : MadtWalk mem endAddr hdr l) (hfuel : l.length < fuel) (s : σ)
    (count : ℕ) :
    acpiParseMadtLoop mem endAddr type handler fuel hdr s count =
      ((madtEntries mem type l).foldlM handler s).map
        fun s => (s, count + (madtEntries mem type l).length) := by
  obtain ⟨fuel, rfl⟩ := Nat.exists_eq_succ_of_ne_zero (show fuel ≠ 0 by omega)
  induction l generalizing hdr s count fuel with
  | nil =>
    rw [acpiParseMadtLoop, if_neg (not_lt.mpr h)]
    rfl
  | cons p l ih =>
    obtain ⟨rfl, hlt, hrest⟩ := h
    rw [List.length_cons] at hfuel
    obtain ⟨fuel, rfl⟩ := Nat.exists_eq_succ_of_ne_zero (show fuel ≠ 0 by omega)
    have hnext := fun s count => ih hrest s count fuel (by omega)
    rw [acpiParseMadtLoop, if_pos hlt]
    dsimp only
    by_cases htype : madtType mem p = type
    · have hcons : madtEntries mem type (p :: l) = p :: madtEntries mem type l :=
        List.filter_cons_of_pos (by simpa using htype)
      rw [if_pos htype, hcons, List.foldlM_cons]
      cases hret : handler s p with
      | none => rfl
      | some s' =>
        rw [Option.bind_eq_bind, Option.bind_some, hnext, Option.bind_eq_bind, Option.bind_some,
          List.length_cons, Nat.add_assoc, Nat.add_comm 1]
    · have hcons : madtEntries mem type (p :: l) = madtEntries mem type l :=
        List.filter_cons_of_neg (by simpa using htype)
      rw [if_neg htype, hcons, hnext]

/-- **The walk is a fold over the entries of one type.** -/
theorem acpiParseMadt_eq (h : MadtWalk mem (madtEnd mem tbl) (wadd tbl sizeofAcpiMadt) l)
    (hfuel : l.length < fuel) (s : σ) :
    acpiParseMadt mem tbl type handler fuel s =
      ((madtEntries mem type l).foldlM handler s).map
        fun s => (s, (madtEntries mem type l).length) := by
  rw [acpiParseMadt, acpiParseMadtLoop_eq h hfuel, Nat.zero_add]

/-! ### Stored tables -/

/-- An entry of the format: its type and what follows its length. -/
structure MadtEntry where
  /-- The type byte. -/
  type : UInt8
  /-- The bytes after the length. -/
  body : List UInt8
  /-- The length fits in its byte. -/
  fits : body.length + 2 ≤ 255

/-- The encoded size. -/
def MadtEntry.size (e : MadtEntry) : ℕ := e.body.length + 2

/-- The encoding: the type, the size, the rest. -/
def MadtEntry.bytes (e : MadtEntry) : List UInt8 := e.type :: UInt8.ofNat e.size :: e.body

@[simp] theorem MadtEntry.length_bytes (e : MadtEntry) : e.bytes.length = e.size := rfl

/-- The entry area of a table. -/
def madtArea (entries : List MadtEntry) : List UInt8 := entries.flatMap MadtEntry.bytes

/-- The addresses of the entries, the first at `p`. -/
def madtStarts : ℕ → List MadtEntry → List ℕ
  | _, [] => []
  | p, e :: entries => p :: madtStarts (p + e.size) entries

/-- The addresses of the entries of one type, the first entry of all at `p`. -/
def madtPointers (type : ℕ) : ℕ → List MadtEntry → List ℕ
  | _, [] => []
  | p, e :: entries =>
    if e.type.toNat = type then p :: madtPointers type (p + e.size) entries
    else madtPointers type (p + e.size) entries

/-- The bytes are in memory from `p` on. -/
def Stored (mem : Memory) (p : ℕ) (bytes : List UInt8) : Prop :=
  ∀ i, ∀ h : i < bytes.length, mem (p + i) = bytes.get ⟨i, h⟩

instance (p : ℕ) (bytes : List UInt8) : Decidable (Stored mem p bytes) := by
  unfold Stored; infer_instance

theorem Stored.left {p : ℕ} {xs ys : List UInt8} (h : Stored mem p (xs ++ ys)) :
    Stored mem p xs := by
  intro i hi
  rw [h i (by rw [List.length_append]; omega)]
  simp [List.getElem_append_left hi]

theorem Stored.right {p : ℕ} {xs ys : List UInt8} (h : Stored mem p (xs ++ ys)) :
    Stored mem (p + xs.length) ys := by
  intro i hi
  rw [Nat.add_assoc, h (xs.length + i) (by rw [List.length_append]; omega)]
  simp

/-- The type and the length of a stored entry. -/
theorem MadtEntry.header_of_stored {p : ℕ} {e : MadtEntry} (h : Stored mem p e.bytes)
    (hp : p + 1 < 2 ^ 32) : madtType mem p = e.type.toNat ∧ madtLength mem p = e.size := by
  have h0 : mem (p + 0) = e.type := h 0 (Nat.zero_lt_succ _)
  have h1 : mem (p + 1) = UInt8.ofNat e.size := h 1 (Nat.succ_lt_succ (Nat.zero_lt_succ _))
  have hsize : e.size < 2 ^ 8 := Nat.lt_succ_of_le e.fits
  constructor
  · rw [madtType, ← h0, Nat.add_zero]
  · rw [madtLength, wadd_of_lt hp, h1, UInt8.toNat_ofNat_of_lt' hsize]

/-- **A stored area is walked entry by entry.** -/
theorem madtWalk_of_stored {p : ℕ} {entries : List MadtEntry}
    (h : Stored mem p (madtArea entries)) (hend : p + (madtArea entries).length = endAddr)
    (hlt : endAddr < 2 ^ 32) : MadtWalk mem endAddr p (madtStarts p entries) := by
  induction entries generalizing p with
  | nil => exact hend.ge
  | cons e entries ih =>
    have happ : madtArea (e :: entries) = e.bytes ++ madtArea entries := rfl
    rw [happ] at h hend
    rw [List.length_append, e.length_bytes] at hend
    have htwo : 2 ≤ e.size := Nat.le_add_left _ _
    obtain ⟨-, hlen⟩ := MadtEntry.header_of_stored h.left (by omega)
    have hnext : wadd p (madtLength mem p) = p + e.size := by
      rw [hlen]
      exact wadd_of_lt (by omega)
    refine ⟨rfl, by omega, ?_⟩
    rw [hnext]
    exact ih h.right (by omega)

/-- The entries of one type, among those visited. -/
theorem madtEntries_of_stored {p : ℕ} {entries : List MadtEntry}
    (h : Stored mem p (madtArea entries)) (hlt : p + (madtArea entries).length < 2 ^ 32) :
    madtEntries mem type (madtStarts p entries) = madtPointers type p entries := by
  induction entries generalizing p with
  | nil => rfl
  | cons e entries ih =>
    have happ : madtArea (e :: entries) = e.bytes ++ madtArea entries := rfl
    rw [happ] at h hlt
    rw [List.length_append, e.length_bytes] at hlt
    have htwo : 2 ≤ e.size := Nat.le_add_left _ _
    obtain ⟨htype, -⟩ := MadtEntry.header_of_stored h.left (by omega)
    have hrest : madtEntries mem type (madtStarts (p + e.size) entries) =
      madtPointers type (p + e.size) entries := ih h.right (by omega)
    have hcons : madtStarts p (e :: entries) = p :: madtStarts (p + e.size) entries := rfl
    rw [madtPointers, ← hrest, hcons, madtEntries, List.filter_cons, htype]
    simp [madtEntries]

theorem length_madtStarts (p : ℕ) (entries : List MadtEntry) :
    (madtStarts p entries).length = entries.length := by
  induction entries generalizing p with
  | nil => rfl
  | cons e entries ih => simp [madtStarts, ih]

theorem length_madtPointers (p : ℕ) (entries : List MadtEntry) :
    (madtPointers type p entries).length =
      (entries.filter fun e => decide (e.type.toNat = type)).length := by
  induction entries generalizing p with
  | nil => rfl
  | cons e entries ih =>
    by_cases htype : e.type.toNat = type
    · simp [madtPointers, htype, ih]
    · simp [madtPointers, htype, ih]

/-- **Parsing a stored table**: whatever the entries and the handler, the walk ends, calls the
handler once for each entry of the type, in the order of the table and with a pointer to its first
byte, and returns their number. -/
theorem acpiParseMadt_stored (entries : List MadtEntry)
    (hlength : readLE mem (wadd tbl 4) 4 = sizeofAcpiMadt + (madtArea entries).length)
    (hstored : Stored mem (tbl + sizeofAcpiMadt) (madtArea entries))
    (hfit : tbl + (sizeofAcpiMadt + (madtArea entries).length) < 2 ^ 32)
    (hfuel : entries.length < fuel) (s : σ) :
    acpiParseMadt mem tbl type handler fuel s =
      ((madtPointers type (tbl + sizeofAcpiMadt) entries).foldlM handler s).map
        fun s => (s, (entries.filter fun e => decide (e.type.toNat = type)).length) := by
  have hend : madtEnd mem tbl = tbl + (sizeofAcpiMadt + (madtArea entries).length) := by
    rw [madtEnd, hlength, wadd_of_lt hfit]
  have hfirst : wadd tbl sizeofAcpiMadt = tbl + sizeofAcpiMadt := wadd_of_lt (by omega)
  have hwalk : MadtWalk mem (madtEnd mem tbl) (wadd tbl sizeofAcpiMadt)
      (madtStarts (tbl + sizeofAcpiMadt) entries) := by
    rw [hend, hfirst]
    exact madtWalk_of_stored hstored (Nat.add_assoc _ _ _) hfit
  rw [acpiParseMadt_eq hwalk (by rwa [length_madtStarts]),
    madtEntries_of_stored hstored (by omega), length_madtPointers]

/-- A table with an IO APIC after an entry of another type that holds the same bytes. -/
def sampleMadt : Memory := fun a =>
  ([0, 0, 0, 0, 50, 0, 0, 0] ++ List.replicate 36 0 ++ [5, 4, 1, 2, 1, 2] : List UInt8).getD a 0

/-- The handler is called for the entry only. -/
theorem acpiParseMadt_stored_sample :
    acpiParseMadt sampleMadt 0 madtIoApic (fun calls p => some (calls ++ [p])) 3 [] =
      some ([48], 1) := by
  have h := @acpiParseMadt_stored (List ℕ) sampleMadt 0 madtIoApic 3
    (fun calls p => some (calls ++ [p])) [⟨5, [1, 2], by decide⟩, ⟨1, [], by decide⟩]
    (by decide) (by decide) (by decide) (by decide) []
  rw [h]
  rfl

end Auos
