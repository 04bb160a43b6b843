import Auos.SlabCache.Slab

/-!
# The two lists of a slab cache

Which slabs the lists of a cache hold. A slab is known by the first of its two pages. `Listed c nodes P`
says that the slabs of the pages `P` are on the lists of `c`, each on the list that its counter asks
for. A slab that is being written is first taken out of `P` and put back afterwards, so the writes of
the slab itself never meet a slab of `P`.

## Main definitions

* `BlockOk` — two pages, naturally aligned
* `Listed` — the representation

## Main results

* `pageOfAddress_add` — the page of an address inside a slab
* `Listed.write`, `Listed.moveToFull`, `Listed.moveToPartial`
-/

namespace Auos

open Links

/-! ### Addresses -/

/-- `page` is the first page of a naturally aligned block of two pages. Frames are below `2 ^ 20`, since
physical addresses have 32 bits. -/
structure BlockOk (page : ℕ) : Prop where
  dvd : 2 ∣ page
  le : page + 2 ≤ 2 ^ 20

variable {page page' d slab : ℕ}

theorem pageVirtualAddress_eq (hpage : page < 2 ^ 20) :
    pageVirtualAddress page = (page * 4096 + 0xC0000000) % 2 ^ 32 := by
  have hshift : page <<< pageShift = page * 4096 := Nat.shiftLeft_eq page 12
  rw [pageVirtualAddress, hshift, wrap_of_lt (by omega)]
  rfl

/-- A slab does not wrap around the end of the address space. -/
theorem BlockOk.pageVirtualAddress_add_le (h : BlockOk page) :
    pageVirtualAddress page + slabSpace ≤ 2 ^ 32 := by
  have hdvd := h.dvd
  have hle := h.le
  rw [pageVirtualAddress_eq (by omega)]
  show _ + 8192 ≤ _
  omega

/-- The page of an address inside a slab. -/
theorem pageOfAddress_add (h : BlockOk page) (hd : d < slabSpace) :
    pageOfAddress (pageVirtualAddress page + d) = page + d / 4096 := by
  have hdvd := h.dvd
  have hle := h.le
  have hd' : d < 8192 := hd
  rw [pageVirtualAddress_eq (by omega), pageOfAddress, Nat.shiftRight_eq_div_pow, physAddr, wsub, wrap]
  show (_ + _ + (2 ^ 32 - 0xC0000000)) % 2 ^ 32 / 4096 = _
  omega

/-- Slabs of different blocks share no address. -/
theorem eq_of_pageVirtualAddress_add_eq {d' : ℕ} (h : BlockOk page) (h' : BlockOk page')
    (hd : d < slabSpace) (hd' : d' < slabSpace)
    (heq : pageVirtualAddress page + d = pageVirtualAddress page' + d') : page = page' := by
  have hpage := pageOfAddress_add h hd
  rw [heq, pageOfAddress_add h' hd'] at hpage
  have hd8 : d < 8192 := hd
  have hd8' : d' < 8192 := hd'
  have hdvd := h.dvd
  have hdvd' := h'.dvd
  omega

theorem pageVirtualAddress_inj (h : BlockOk page) (h' : BlockOk page') :
    pageVirtualAddress page = pageVirtualAddress page' ↔ page = page' := by
  have hpos : 0 < slabSpace := by decide
  refine ⟨?_, fun heq => by rw [heq]⟩
  intro heq
  exact eq_of_pageVirtualAddress_add_eq h h' hpos hpos (by rw [heq])

/-! ### The lists -/

/-- The head of the list of the full slabs (`true`) or of the others (`false`). -/
def listHead : Bool → SlabNode
  | false => .partialHead
  | true => .fullHead

/-- The slabs of the blocks `P` are on the lists of the cache, each on the one its counter asks for. -/
structure Listed (c : SlabCache) (nodes : Bool → List SlabNode) (P : Set ℕ) : Prop where
  /-- The lists are well formed. -/
  rings : c.links.Rings Set.univ listHead nodes
  /-- The list `b` holds the slabs that are full if `b` is and not full otherwise. -/
  mem_nodes : ∀ b x, x ∈ nodes b ↔ ∃ page ∈ P, x = .link (pageVirtualAddress page) ∧
    (b = true ↔ (c.slabs (pageVirtualAddress page)).free = 0)
  /-- The blocks are naturally aligned. -/
  block_ok : ∀ page ∈ P, BlockOk page

variable {c : SlabCache} {nodes : Bool → List SlabNode} {P : Set ℕ} {b : Bool} {s : Slab}

namespace Listed

theorem mem_link_iff (h : Listed c nodes P) (hpage : BlockOk page) :
    SlabNode.link (pageVirtualAddress page) ∈ nodes b ↔
      page ∈ P ∧ (b = true ↔ (c.slabs (pageVirtualAddress page)).free = 0) := by
  rw [h.mem_nodes]
  constructor
  · rintro ⟨page', hmem, heq, hfull⟩
    obtain rfl := (pageVirtualAddress_inj hpage (h.block_ok page' hmem)).mp (SlabNode.link.inj heq)
    exact ⟨hmem, hfull⟩
  · rintro ⟨hmem, hfull⟩
    exact ⟨page, hmem, rfl, hfull⟩

/-- A block outside `P` is on no list. -/
theorem link_notMem (h : Listed c nodes P) (hpage : BlockOk page) (hnew : page ∉ P) :
    ∀ b ∈ Set.univ, SlabNode.link (pageVirtualAddress page) ∉ listHead b :: nodes b := by
  intro b _ hmem
  rcases List.mem_cons.mp hmem with heq | hmem
  · cases b <;> cases heq
  · exact hnew ((h.mem_link_iff hpage).mp hmem).1

/-- `list_remove` takes a slab off its list. -/
theorem remove (h : Listed c nodes P) (hpage : page ∈ P)
    (hfull : b = true ↔ (c.slabs (pageVirtualAddress page)).free = 0) :
    Listed { c with links := listRemove c.links (.link (pageVirtualAddress page)) }
      (Function.update nodes b ((nodes b).erase (.link (pageVirtualAddress page)))) (P \ {page}) where
  rings := h.rings.listRemove (Set.mem_univ b) ((h.mem_nodes b _).mpr ⟨page, hpage, rfl, hfull⟩)
  mem_nodes := by
    intro b' x
    have hnd : (nodes b).Nodup := (List.nodup_cons.mp (h.rings.ring b (Set.mem_univ b)).2).2
    rcases eq_or_ne b' b with rfl | hne
    · rw [Function.update_self, hnd.mem_erase_iff, h.mem_nodes]
      constructor
      · rintro ⟨hx, p, hp, rfl, hpfull⟩
        exact ⟨p, ⟨hp, fun e => hx (by rw [Set.mem_singleton_iff.mp e])⟩, rfl, hpfull⟩
      · rintro ⟨p, ⟨hp, hpne⟩, rfl, hpfull⟩
        refine ⟨fun e => hpne ?_, p, hp, rfl, hpfull⟩
        exact (pageVirtualAddress_inj (h.block_ok p hp) (h.block_ok page hpage)).mp
          (SlabNode.link.inj e)
    · rw [Function.update_of_ne hne, h.mem_nodes]
      constructor
      · rintro ⟨p, hp, rfl, hpfull⟩
        refine ⟨p, ⟨hp, fun e => hne ?_⟩, rfl, hpfull⟩
        rw [Set.mem_singleton_iff.mp e, ← hfull] at hpfull
        exact Bool.eq_iff_iff.mpr hpfull
      · rintro ⟨p, ⟨hp, -⟩, rfl, hpfull⟩
        exact ⟨p, hp, rfl, hpfull⟩
  block_ok := fun p hp => h.block_ok p hp.1

/-- Writing a slab that is not listed, or writing a listed one without making it full or not full. -/
theorem write (h : Listed c nodes P) (hpage : BlockOk page)
    (hfull : page ∈ P → (s.free = 0 ↔ (c.slabs (pageVirtualAddress page)).free = 0)) :
    Listed { c with slabs := Function.update c.slabs (pageVirtualAddress page) s } nodes P where
  rings := h.rings
  mem_nodes := by
    intro b x
    rw [h.mem_nodes]
    refine exists_congr fun p => and_congr_right fun hp => and_congr_right fun _ => ?_
    dsimp only
    rcases eq_or_ne p page with rfl | hne
    · rw [Function.update_self, hfull hp]
    · rw [Function.update_of_ne (mt (pageVirtualAddress_inj (h.block_ok p hp) hpage).mp hne)]
  block_ok := h.block_ok

/-- An insertion at a list that gains just the slab. -/
theorem insert {L : Links SlabNode} {l : List SlabNode} (h : Listed c nodes P) (hpage : BlockOk page)
    (hrings : L.Rings Set.univ listHead (Function.update nodes b l))
    (hl : ∀ x, x ∈ l ↔ x = .link (pageVirtualAddress page) ∨ x ∈ nodes b)
    (hfull : b = true ↔ (c.slabs (pageVirtualAddress page)).free = 0) :
    Listed { c with links := L } (Function.update nodes b l) (insert page P) where
  rings := hrings
  mem_nodes := by
    intro b' x
    rcases eq_or_ne b' b with rfl | hne
    · rw [Function.update_self, hl, h.mem_nodes]
      constructor
      · rintro (rfl | ⟨p, hp, rfl, hpfull⟩)
        · exact ⟨page, Set.mem_insert _ _, rfl, hfull⟩
        · exact ⟨p, Set.mem_insert_of_mem _ hp, rfl, hpfull⟩
      · rintro ⟨p, rfl | hp, rfl, hpfull⟩
        · exact Or.inl rfl
        · exact Or.inr ⟨p, hp, rfl, hpfull⟩
    · rw [Function.update_of_ne hne, h.mem_nodes]
      constructor
      · rintro ⟨p, hp, rfl, hpfull⟩
        exact ⟨p, Set.mem_insert_of_mem _ hp, rfl, hpfull⟩
      · rintro ⟨p, rfl | hp, rfl, hpfull⟩
        · exact absurd (Bool.eq_iff_iff.mpr (hpfull.trans hfull.symm)) hne
        · exact ⟨p, hp, rfl, hpfull⟩
  block_ok := by
    rintro p (rfl | hp)
    · exact hpage
    · exact h.block_ok p hp

/-- `list_insert_before` at the list of the slabs that are not full. -/
theorem insertPartial (h : Listed c nodes P) (hpage : BlockOk page) (hnew : page ∉ P)
    (hfree : (c.slabs (pageVirtualAddress page)).free ≠ 0) :
    Listed { c with
        links := listInsertBefore c.links .partialHead (.link (pageVirtualAddress page)) }
      (Function.update nodes false (nodes false ++ [.link (pageVirtualAddress page)]))
      (Insert.insert page P) :=
  h.insert hpage (h.rings.listInsertBefore (Set.mem_univ false) (h.link_notMem hpage hnew))
    (fun x => by rw [List.mem_append, List.mem_singleton, or_comm]) (by simp [hfree])

/-- `list_insert_after` at the list of the full slabs. -/
theorem insertFull (h : Listed c nodes P) (hpage : BlockOk page) (hnew : page ∉ P)
    (hfree : (c.slabs (pageVirtualAddress page)).free = 0) :
    Listed { c with
        links := listInsertAfter c.links .fullHead (.link (pageVirtualAddress page)) }
      (Function.update nodes true (.link (pageVirtualAddress page) :: nodes true))
      (Insert.insert page P) :=
  h.insert hpage (h.rings.listInsertAfter (Set.mem_univ true) (h.link_notMem hpage hnew))
    (fun _ => List.mem_cons) (by simp [hfree])

/-- Taking a slab off its list and writing it. -/
theorem removeWrite (h : Listed c nodes P) (hpage : page ∈ P)
    (hfull : b = true ↔ (c.slabs (pageVirtualAddress page)).free = 0) (s : Slab) :
    ∃ nodes', Listed { c with
      slabs := Function.update c.slabs (pageVirtualAddress page) s
      links := listRemove c.links (.link (pageVirtualAddress page)) } nodes' (P \ {page}) :=
  ⟨_, (h.remove hpage hfull).write (h.block_ok page hpage) fun hmem => absurd rfl hmem.2⟩

/-- A slab that becomes full moves to the list of the full slabs. -/
theorem moveToFull (h : Listed c nodes P) (hpage : page ∈ P)
    (hfree : (c.slabs (pageVirtualAddress page)).free ≠ 0) (hs : s.free = 0) :
    ∃ nodes', Listed { c with
      slabs := Function.update c.slabs (pageVirtualAddress page) s
      links := listInsertAfter (listRemove c.links (.link (pageVirtualAddress page))) .fullHead
        (.link (pageVirtualAddress page)) } nodes' P := by
  obtain ⟨nodes', hremoved⟩ := h.removeWrite (b := false) hpage (by simp [hfree]) s
  have hmoved := hremoved.insertFull (h.block_ok page hpage) (fun hmem => hmem.2 rfl)
    (by dsimp only; rw [Function.update_self]; exact hs)
  rw [Set.insert_sdiff_singleton, Set.insert_eq_of_mem hpage] at hmoved
  exact ⟨_, hmoved⟩

/-- A full slab that gets an object back moves to the other list. -/
theorem moveToPartial (h : Listed c nodes P) (hpage : page ∈ P)
    (hfree : (c.slabs (pageVirtualAddress page)).free = 0) (hs : s.free ≠ 0) :
    ∃ nodes', Listed { c with
      slabs := Function.update c.slabs (pageVirtualAddress page) s
      links := listInsertBefore (listRemove c.links (.link (pageVirtualAddress page))) .partialHead
        (.link (pageVirtualAddress page)) } nodes' P := by
  obtain ⟨nodes', hremoved⟩ := h.removeWrite (b := true) hpage (by simp [hfree]) s
  have hmoved := hremoved.insertPartial (h.block_ok page hpage) (fun hmem => hmem.2 rfl)
    (by dsimp only; rw [Function.update_self]; exact hs)
  rw [Set.insert_sdiff_singleton, Set.insert_eq_of_mem hpage] at hmoved
  exact ⟨_, hmoved⟩

end Listed

end Auos
