import Nachos.Machine.Translate

/-!
# User memory (machine/translate.cc)

The memory a user program sees: the bytes at its virtual addresses, wherever the
page table puts them.

* `translate_eq_ok`: when an access translates, and where it leads;
* `Machine.userMemory`: the bytes by their virtual addresses;
* `BehavesLikeMemory`, `behavesLikeMemory`: under a page table that maps no two
  pages to one frame, a write changes the bytes written, and a read returns them.
-/

namespace Nachos

open Nachos.Framework

/-! ## Translation -/

/-- Where an entry puts a virtual address. -/
def TranslationEntry.physAddr (e : TranslationEntry) (virtAddr : Nat) : Nat :=
  e.physicalPage.toNat * pageSize + virtAddr % pageSize

/-- The entry after an access through it. -/
def TranslationEntry.touch (e : TranslationEntry) (writing : Bool) : TranslationEntry :=
  { e with use := true, dirty := e.dirty || writing }

/-- The machine after an access through the entry `e`. -/
def Machine.touch (m : Machine) (virtAddr : BitVec 32) (e : TranslationEntry) (writing : Bool) :
    Machine :=
  { m with pageTable := m.pageTable.set (virtAddr.toNat / pageSize) (e.touch writing) }

/-- The machine after a write at the physical address `a`. -/
def Machine.store (m : Machine) (a size : Nat) (value : BitVec 32) : Machine :=
  { m with mainMemory := splice m.mainMemory a size (bytesOf value) }

/-- The access passes all checks of `Translate`, through the entry `e`. -/
structure Translates (m : Machine) (virtAddr : BitVec 32) (size : Nat) (writing : Bool)
    (e : TranslationEntry) : Prop where
  aligned : ¬ ((size = 4 ∧ virtAddr &&& 0x3 ≠ 0) ∨ (size = 2 ∧ virtAddr &&& 0x1 ≠ 0))
  inTable : virtAddr.toNat / pageSize < m.pageTableSize
  entry : m.pageTable[virtAddr.toNat / pageSize]? = some e
  valid : e.valid = true
  writable : ¬ (e.readOnly = true ∧ writing = true)
  frame : e.physicalPage.toNat < numPhysPages
  inMemory : e.physAddr virtAddr.toNat + size ≤ memorySize

section
variable {m m' : Machine} {virtAddr : BitVec 32} {size : Nat} {writing : Bool}

theorem translate_eq_ok {p : Nat × Machine} : m.translate virtAddr size writing = .ok p ↔
    ∃ e, Translates m virtAddr size writing e ∧
      p = (e.physAddr virtAddr.toNat, m.touch virtAddr e writing) := by
  unfold Machine.translate
  constructor
  · intro h
    split at h
    · cases h
    rename_i haligned
    simp only at h
    split at h
    · cases h
    rename_i htable
    split at h
    · cases h
    rename_i e hentry
    split at h
    · cases h
    rename_i hvalid
    split at h
    · cases h
    rename_i hwritable
    split at h
    · cases h
    rename_i hframe
    split at h
    · rename_i hmem
      cases h
      exact ⟨e, ⟨haligned, Nat.lt_of_not_le htable, hentry, by simpa using hvalid, hwritable,
        Nat.lt_of_not_le hframe, hmem⟩, rfl⟩
    · cases h
  · rintro ⟨e, ⟨haligned, htable, hentry, hvalid, hwritable, hframe, hmem⟩, rfl⟩
    rw [if_neg haligned]
    simp only [hentry]
    rw [if_neg (Nat.not_le.mpr htable), if_neg (by rw [hvalid]; decide), if_neg hwritable,
      if_neg (Nat.not_le.mpr hframe)]
    exact if_pos hmem

theorem writeMem_eq_ok (hs : size = 1 ∨ size = 2 ∨ size = 4) {value : BitVec 32} :
    m.writeMem virtAddr size value = .ok m' ↔ ∃ e, Translates m virtAddr size true e ∧
      m' = (m.touch virtAddr e true).store (e.physAddr virtAddr.toNat) size value := by
  have hwrite : m.writeMem virtAddr size value =
      m.translate virtAddr size true >>= fun p => .ok (p.2.store p.1 size value) := by
    rcases hs with rfl | rfl | rfl <;> rfl
  rw [hwrite, bind_eq_ok]
  constructor
  · rintro ⟨p, hp, h⟩
    obtain ⟨e, he, rfl⟩ := translate_eq_ok.mp hp
    cases h
    exact ⟨e, he, rfl⟩
  · rintro ⟨e, he, rfl⟩
    exact ⟨_, translate_eq_ok.mpr ⟨e, he, rfl⟩, rfl⟩

/-- What a read is used for: the callers mask a byte, that `ReadMem` reads as signed. -/
def masked (size : Nat) (value : BitVec 32) : BitVec 32 :=
  if size = 1 then value &&& 0xff else value

theorem signExtend_and_byte (b : BitVec 8) : b.signExtend 32 &&& 0xff = b.setWidth 32 := by
  revert b
  decide +kernel

/-- A read gives the bytes at the address, the lowest first. -/
theorem readMem_eq_ok (hs : size = 1 ∨ size = 2 ∨ size = 4) {value : BitVec 32}
    (h : m.readMem virtAddr size = .ok (value, m')) : ∃ e, Translates m virtAddr size false e ∧
      m' = m.touch virtAddr e false ∧ masked size value = BitVec.ofNat 32
        (littleEndian (fun i => m.mainMemory (e.physAddr virtAddr.toNat + i)) size) := by
  unfold Machine.readMem at h
  obtain ⟨p, hp, h⟩ := bind_eq_ok.mp h
  obtain ⟨e, he, rfl⟩ := translate_eq_ok.mp hp
  refine ⟨e, he, ?_⟩
  rcases hs with rfl | rfl | rfl
  · cases h
    refine ⟨rfl, ?_⟩
    show (BitVec.signExtend 32 _) &&& 0xff = _
    rw [signExtend_and_byte]
    simp only [littleEndian, Nat.mul_zero, Nat.pow_zero, Nat.one_mul, Nat.zero_add, Nat.add_zero]
    exact (BitVec.ofNat_toNat 32 _).symm
  · cases h
    refine ⟨rfl, ?_⟩
    show (halfAt m.mainMemory (e.physAddr virtAddr.toNat)).setWidth 32 = _
    have hlt : _ < 2 ^ 16 := littleEndian_lt (fun i => m.mainMemory (e.physAddr virtAddr.toNat + i)) 2
    rw [halfAt_eq_littleEndian]
    apply BitVec.eq_of_toNat_eq
    rw [BitVec.toNat_setWidth, BitVec.toNat_ofNat, BitVec.toNat_ofNat, Nat.mod_eq_of_lt hlt]
  · cases h
    exact ⟨rfl, wordAt_eq_littleEndian _ _⟩

theorem readMem_of_translates (hs : size = 1 ∨ size = 2 ∨ size = 4) {e : TranslationEntry}
    (he : Translates m virtAddr size false e) : ∃ p, m.readMem virtAddr size = .ok p := by
  have hp := translate_eq_ok.mpr ⟨e, he, rfl⟩
  unfold Machine.readMem
  rw [hp]
  rcases hs with rfl | rfl | rfl <;> exact ⟨_, rfl⟩

/-- An access that fails raises an exception with nothing changed, unless the table is too
short or the access crosses the end of its page. -/
theorem translate_error {f : Fault} (h : m.translate virtAddr size writing = .error f) :
    (∃ which, f = .exception which virtAddr m) ∨ m.pageTable.length < m.pageTableSize ∨
    (¬ ((size = 4 ∧ virtAddr &&& 0x3 ≠ 0) ∨ (size = 2 ∧ virtAddr &&& 0x1 ≠ 0)) ∧
      pageSize < virtAddr.toNat % pageSize + size) := by
  unfold Machine.translate at h
  simp only at h
  split at h
  · cases h
    exact .inl ⟨_, rfl⟩
  rename_i haligned
  split at h
  · cases h
    exact .inl ⟨_, rfl⟩
  rename_i htable
  split at h
  · rename_i hnone
    have := List.getElem?_eq_none_iff.mp hnone
    exact .inr (.inl (by omega))
  split at h
  · cases h
    exact .inl ⟨_, rfl⟩
  split at h
  · cases h
    exact .inl ⟨_, rfl⟩
  split at h
  · cases h
    exact .inl ⟨_, rfl⟩
  rename_i hframe
  split at h
  · cases h
  rename_i hmem
  refine .inr (.inr ⟨haligned, ?_⟩)
  simp only [memorySize, numPhysPages, pageSize] at hframe hmem ⊢
  omega

theorem aligned_iff (hs : size = 1 ∨ size = 2 ∨ size = 4) :
    ¬ ((size = 4 ∧ virtAddr &&& 0x3 ≠ 0) ∨ (size = 2 ∧ virtAddr &&& 0x1 ≠ 0)) ↔
      virtAddr.toNat % size = 0 := by
  have h3 : virtAddr &&& 0x3 = 0 ↔ virtAddr.toNat % 4 = 0 := by
    rw [← toNat_and_three, ← BitVec.toNat_inj]
    rfl
  have h1 : virtAddr &&& 0x1 = 0 ↔ virtAddr.toNat % 2 = 0 := by
    rw [← toNat_and_one, ← BitVec.toNat_inj]
    rfl
  rw [Ne, Ne, h3, h1]
  rcases hs with rfl | rfl | rfl <;> omega

/-- An aligned access does not cross the end of its page. -/
theorem offset_add_le (hs : size = 1 ∨ size = 2 ∨ size = 4) {x : Nat} (hx : x % size = 0) :
    x % pageSize + size ≤ pageSize := by
  unfold pageSize
  rcases hs with rfl | rfl | rfl <;> omega

end

/-! ## Memory by virtual addresses -/

/-- A page table that maps pages to frames of main memory, no two of them to one. -/
structure Machine.MapsInjectively (m : Machine) : Prop where
  length : m.pageTable.length = m.pageTableSize
  frame : ∀ e ∈ m.pageTable, e.valid = true → e.physicalPage.toNat < numPhysPages
  injective : ∀ (i j : Nat) e e', m.pageTable[i]? = some e → m.pageTable[j]? = some e' →
    e.valid = true → e'.valid = true → e.physicalPage = e'.physicalPage → i = j

/-- The address is a multiple of the size, and its page is in the table, valid, and not
read-only for a write. -/
structure Accessible (m : Machine) (virtAddr : BitVec 32) (size : Nat) (writing : Bool) : Prop where
  aligned : virtAddr.toNat % size = 0
  inTable : virtAddr.toNat / pageSize < m.pageTableSize
  page : ∃ e, m.pageTable[virtAddr.toNat / pageSize]? = some e ∧ e.valid = true ∧
    (writing = true → e.readOnly = false)

/-- The bytes of user memory, by their virtual addresses. -/
def Machine.userMemory (m : Machine) : Bytes := fun x =>
  match m.pageTable[x / pageSize]? with
  | some e => m.mainMemory (e.physAddr x)
  | none => 0

/-- What user memory does, as memory. -/
structure BehavesLikeMemory (m : Machine) : Prop where
  read_iff : ∀ b t, t = 1 ∨ t = 2 ∨ t = 4 →
    ((∃ p, m.readMem b t = .ok p) ↔ Accessible m b t false)
  write_iff : ∀ a s v, s = 1 ∨ s = 2 ∨ s = 4 →
    ((∃ m', m.writeMem a s v = .ok m') ↔ Accessible m a s true)
  /-- Neither stops: an access that fails raises an exception, with nothing changed. -/
  read_error : ∀ b t f, t = 1 ∨ t = 2 ∨ t = 4 → m.readMem b t = .error f →
    ∃ which, f = .exception which b m
  write_error : ∀ a s v f, s = 1 ∨ s = 2 ∨ s = 4 → m.writeMem a s v = .error f →
    ∃ which, f = .exception which a m
  read : ∀ b t w m', t = 1 ∨ t = 2 ∨ t = 4 → m.readMem b t = .ok (w, m') →
    masked t w = BitVec.ofNat 32 (littleEndian (fun i => m.userMemory (b.toNat + i)) t)
  /-- A read after a write sees the bytes written, and the others as they were. -/
  read_write : ∀ a s v m₁ b t w m₂, s = 1 ∨ s = 2 ∨ s = 4 → t = 1 ∨ t = 2 ∨ t = 4 →
    m.writeMem a s v = .ok m₁ → m₁.readMem b t = .ok (w, m₂) →
    masked t w = BitVec.ofNat 32
      (littleEndian (fun i => splice m.userMemory a.toNat s (bytesOf v) (b.toNat + i)) t)

section
variable {m m' : Machine} {virtAddr : BitVec 32} {size : Nat} {writing : Bool}

/-- The assertion of `Translate` never fails, nor does an access leave the table. -/
theorem Machine.MapsInjectively.translate_error (hm : m.MapsInjectively)
    (hs : size = 1 ∨ size = 2 ∨ size = 4) {f : Fault}
    (h : m.translate virtAddr size writing = .error f) : ∃ which, f = .exception which virtAddr m := by
  rcases Nachos.translate_error h with h | h | ⟨haligned, h⟩
  · exact h
  · rw [hm.length] at h
    exact absurd h (Nat.lt_irrefl _)
  · have := offset_add_le hs ((aligned_iff hs).mp haligned)
    omega

theorem Machine.MapsInjectively.translates_iff (hm : m.MapsInjectively)
    (hs : size = 1 ∨ size = 2 ∨ size = 4) :
    (∃ e, Translates m virtAddr size writing e) ↔ Accessible m virtAddr size writing := by
  constructor
  · rintro ⟨e, he⟩
    refine ⟨(aligned_iff hs).mp he.aligned, he.inTable, e, he.entry, he.valid, fun hw => ?_⟩
    have := he.writable
    simp_all
  · rintro ⟨haligned, htable, e, hentry, hvalid, hwritable⟩
    have hframe := hm.frame e (List.mem_of_getElem? hentry) hvalid
    have hoff := offset_add_le hs haligned
    refine ⟨e, (aligned_iff hs).mpr haligned, htable, hentry, hvalid, ?_, hframe, ?_⟩
    · rintro ⟨hro, hw⟩
      rw [hwritable hw] at hro
      cases hro
    · simp only [TranslationEntry.physAddr, memorySize, numPhysPages, pageSize] at hframe hoff ⊢
      omega

/-- An access changes no mapping. -/
theorem touch_mapping {e : TranslationEntry}
    (he : m.pageTable[virtAddr.toNat / pageSize]? = some e) :
    (m.touch virtAddr e writing).pageTable.map TranslationEntry.mapping =
      m.pageTable.map TranslationEntry.mapping :=
  map_mapping_set he rfl

/-- The entry of an address, after accesses that changed no mapping. -/
theorem getElem?_of_mapping {t t' : List TranslationEntry}
    (h : t'.map TranslationEntry.mapping = t.map TranslationEntry.mapping) {i : Nat}
    {e' : TranslationEntry} (he' : t'[i]? = some e') :
    ∃ e, t[i]? = some e ∧ e.physicalPage = e'.physicalPage ∧ e.valid = e'.valid := by
  have hi : (t.map TranslationEntry.mapping)[i]? = some e'.mapping := by
    rw [← h, List.getElem?_map, he']
    rfl
  rw [List.getElem?_map, Option.map_eq_some_iff] at hi
  obtain ⟨e, he, heq⟩ := hi
  simp only [TranslationEntry.mapping, Prod.mk.injEq] at heq
  exact ⟨e, he, heq.1, heq.2.1⟩

theorem physAddr_inj {e e' : TranslationEntry} {x y : Nat} (h : e.physAddr x = e'.physAddr y) :
    e.physicalPage = e'.physicalPage ∧ x % pageSize = y % pageSize := by
  have hx := Nat.mod_lt x (show 0 < pageSize by decide)
  have hy := Nat.mod_lt y (show 0 < pageSize by decide)
  simp only [TranslationEntry.physAddr, pageSize, ← BitVec.toNat_inj] at h hx hy ⊢
  omega

/-- The bytes of an access lie in one page. -/
theorem page_add (hs : size = 1 ∨ size = 2 ∨ size = 4) {x i : Nat} (hx : x % size = 0) (hi : i < size) :
    (x + i) / pageSize = x / pageSize ∧ (x + i) % pageSize = x % pageSize + i := by
  have := offset_add_le hs hx
  unfold pageSize at this ⊢
  omega

theorem userMemory_touch {e : TranslationEntry}
    (he : m.pageTable[virtAddr.toNat / pageSize]? = some e) (x : Nat) :
    (m.touch virtAddr e writing).userMemory x = m.userMemory x := by
  have hlt := (List.getElem?_eq_some_iff.mp he).1
  unfold Machine.userMemory Machine.touch
  by_cases hx : virtAddr.toNat / pageSize = x / pageSize
  · rw [← hx, List.getElem?_set_self hlt, he]
    rfl
  · rw [List.getElem?_set_ne hx]

/-- A write through the page table is a splice at the virtual address: another page is in
another frame. -/
theorem Machine.MapsInjectively.userMemory_store (hm : m.MapsInjectively)
    (hs : size = 1 ∨ size = 2 ∨ size = 4) {e : TranslationEntry}
    (he : Translates m virtAddr size writing e) (value : BitVec 32) {x : Nat} {e' : TranslationEntry}
    (hx : m.pageTable[x / pageSize]? = some e') (hvalid : e'.valid = true) :
    (m.store (e.physAddr virtAddr.toNat) size value).userMemory x =
      splice m.userMemory virtAddr.toNat size (bytesOf value) x := by
  have haligned := (aligned_iff hs).mp he.aligned
  have hstored : (m.store (e.physAddr virtAddr.toNat) size value).userMemory x =
      splice m.mainMemory (e.physAddr virtAddr.toNat) size (bytesOf value) (e'.physAddr x) := by
    unfold Machine.userMemory Machine.store
    rw [hx]
  have huser : m.userMemory x = m.mainMemory (e'.physAddr x) := by
    unfold Machine.userMemory
    rw [hx]
  rw [hstored]
  by_cases hin : virtAddr.toNat ≤ x ∧ x < virtAddr.toNat + size
  · obtain ⟨i, rfl⟩ := Nat.exists_eq_add_of_le hin.1
    have hi : i < size := by omega
    obtain ⟨hpage, hoff⟩ := page_add hs haligned hi
    rw [hpage, he.entry] at hx
    cases hx
    have hphys : e.physAddr (virtAddr.toNat + i) = e.physAddr virtAddr.toNat + i := by
      unfold TranslationEntry.physAddr
      omega
    rw [splice_apply_add hi, hphys, splice_apply_add hi]
  · rw [splice_apply_of_notMem hin, huser]
    refine splice_apply_of_notMem fun hphys => hin ?_
    -- the same frame, so the same page
    obtain ⟨i, hi⟩ := Nat.exists_eq_add_of_le hphys.1
    have hlt : i < size := by omega
    obtain ⟨hpage, hoff⟩ := page_add hs haligned hlt
    have hsame : e'.physAddr x = e.physAddr (virtAddr.toNat + i) := by
      rw [hi]
      unfold TranslationEntry.physAddr
      omega
    obtain ⟨hframe, hmod⟩ := physAddr_inj hsame
    have hxy := hm.injective _ _ _ _ hx he.entry hvalid he.valid hframe
    have hdiv := Nat.div_add_mod x pageSize
    have hdiv' := Nat.div_add_mod (virtAddr.toNat + i) pageSize
    rw [hxy, hmod, ← hpage, hdiv'] at hdiv
    omega

/-- A read returns the bytes of user memory. -/
theorem readMem_userMemory (hs : size = 1 ∨ size = 2 ∨ size = 4) {value : BitVec 32}
    (h : m.readMem virtAddr size = .ok (value, m')) : masked size value = BitVec.ofNat 32
      (littleEndian (fun i => m.userMemory (virtAddr.toNat + i)) size) := by
  obtain ⟨e, he, -, hvalue⟩ := readMem_eq_ok hs h
  rw [hvalue]
  congr 1
  apply littleEndian_congr
  intro i hi
  obtain ⟨hpage, hoff⟩ := page_add hs ((aligned_iff hs).mp he.aligned) hi
  unfold Machine.userMemory
  rw [hpage, he.entry]
  simp only [TranslationEntry.physAddr, hoff, Nat.add_assoc]

/-- An access that fails raises an exception and changes nothing. -/
theorem Machine.MapsInjectively.readMem_error (hm : m.MapsInjectively)
    (hs : size = 1 ∨ size = 2 ∨ size = 4) {f : Fault} (h : m.readMem virtAddr size = .error f) :
    ∃ which, f = .exception which virtAddr m := by
  unfold Machine.readMem at h
  cases htr : m.translate virtAddr size false with
  | error f' =>
    rw [htr] at h
    cases h
    exact hm.translate_error hs htr
  | ok p =>
    rw [htr] at h
    rcases hs with rfl | rfl | rfl <;> cases h

theorem Machine.MapsInjectively.writeMem_error (hm : m.MapsInjectively)
    (hs : size = 1 ∨ size = 2 ∨ size = 4) {value : BitVec 32} {f : Fault}
    (h : m.writeMem virtAddr size value = .error f) : ∃ which, f = .exception which virtAddr m := by
  unfold Machine.writeMem at h
  cases htr : m.translate virtAddr size true with
  | error f' =>
    rw [htr] at h
    cases h
    exact hm.translate_error hs htr
  | ok p =>
    rw [htr] at h
    rcases hs with rfl | rfl | rfl <;> cases h

/-- A read after a write. -/
theorem Machine.MapsInjectively.readMem_of_writeMem (hm : m.MapsInjectively) {a b : BitVec 32} {s t : Nat}
    (hs : s = 1 ∨ s = 2 ∨ s = 4) (ht : t = 1 ∨ t = 2 ∨ t = 4) {v w : BitVec 32} {m₁ m₂ : Machine}
    (hwrite : m.writeMem a s v = .ok m₁) (hread : m₁.readMem b t = .ok (w, m₂)) :
    masked t w = BitVec.ofNat 32
      (littleEndian (fun i => splice m.userMemory a.toNat s (bytesOf v) (b.toNat + i)) t) := by
  obtain ⟨e, he, rfl⟩ := (writeMem_eq_ok hs).mp hwrite
  rw [readMem_userMemory ht hread]
  obtain ⟨e₁, he₁, -⟩ := readMem_eq_ok ht hread
  -- the page that is read was mapped before the write too
  obtain ⟨e', he', -, hvalid⟩ := getElem?_of_mapping (touch_mapping he.entry) he₁.entry
  congr 1
  apply littleEndian_congr
  intro i hi
  have hpage := (page_add ht ((aligned_iff ht).mp he₁.aligned) hi).1
  rw [← hpage] at he'
  have hstore := hm.userMemory_store hs he v he' (hvalid.trans he₁.valid)
  rw [← hstore]
  exact userMemory_touch (m := m.store (e.physAddr a.toNat) s v) he.entry (b.toNat + i)

/-- Under every such page table, user memory behaves like memory. -/
theorem behavesLikeMemory (m : Machine) (hm : m.MapsInjectively) : BehavesLikeMemory m where
  read_iff := by
    intro b t ht
    rw [← hm.translates_iff ht]
    constructor
    · rintro ⟨⟨w, m'⟩, h⟩
      obtain ⟨e, he, -⟩ := readMem_eq_ok ht h
      exact ⟨e, he⟩
    · rintro ⟨e, he⟩
      exact readMem_of_translates ht he
  write_iff := by
    intro a s v hs
    rw [← hm.translates_iff hs]
    constructor
    · rintro ⟨m', h⟩
      obtain ⟨e, he, -⟩ := (writeMem_eq_ok hs).mp h
      exact ⟨e, he⟩
    · rintro ⟨e, he⟩
      exact ⟨_, (writeMem_eq_ok hs).mpr ⟨e, he, rfl⟩⟩
  read_error := by
    intro b t f ht h
    exact hm.readMem_error ht h
  write_error := by
    intro a s v f hs h
    exact hm.writeMem_error hs h
  read := by
    intro b t w m' ht h
    exact readMem_userMemory ht h
  read_write := by
    intro a s v m₁ b t w m₂ hs ht hwrite hread
    exact hm.readMem_of_writeMem hs ht hwrite hread

end

/-- One page, that is not read-only, in frame 3. -/
theorem behavesLikeMemory_one :
    BehavesLikeMemory ⟨fun _ => 0, fun _ => 0, [⟨0, 3, true, false, false, false⟩], 1⟩ :=
  behavesLikeMemory _ {
    length := rfl
    frame := by decide
    injective := by
      intro i j e e' hi hj _ _ _
      have hi' := (List.getElem?_eq_some_iff.mp hi).1
      have hj' := (List.getElem?_eq_some_iff.mp hj).1
      simp only [List.length_cons, List.length_nil] at hi' hj'
      omega }

end Nachos
