import Aomp.Arguments.Emit

/-!
# The layout of the buffer

The entries follow one another at running offsets, which are those of the struct type that the
first pass builds. The stores of all passes ascend and end with the buffer.
-/
namespace Aomp.Arguments

open Foundations

variable {f : Entry} {entries : List Entry} {off : ℕ}

def place (off : ℕ) (f : Entry) : ℕ := off + off % f.size

def dataStores : ℕ → List Entry → List Store
  | _, [] => []
  | off, f :: entries =>
    ⟨place off f, leBytes f.size f.stored⟩ :: dataStores (place off f + f.size) entries

def dataEnd : ℕ → List Entry → ℕ
  | off, [] => off
  | off, f :: entries => dataEnd (place off f + f.size) entries

theorem size_dvd_place (h : 4 ∣ off) : f.size ∣ place off f := by
  unfold place
  rcases f.size_cases with hs | hs <;> rw [hs] <;> omega

theorem four_dvd_next (h : 4 ∣ off) : 4 ∣ place off f + f.size := by
  unfold place
  rcases f.size_cases with hs | hs <;> rw [hs] <;> omega

theorem le_place (off : ℕ) (f : Entry) : off ≤ place off f := Nat.le_add_right _ _

/-- A field and its padding have 16 bytes at most. -/
theorem dataEnd_le (off : ℕ) (entries : List Entry) :
    dataEnd off entries ≤ off + 16 * entries.length := by
  induction entries generalizing off with
  | nil => exact le_rfl
  | cons f entries ih =>
    have hrest := ih (place off f + f.size)
    have hplace : place off f + f.size ≤ off + 16 := by
      unfold place
      rcases f.size_cases with hs | hs <;> rw [hs] <;> omega
    rw [dataEnd, List.length_cons]
    omega

theorem le_dataEnd (off : ℕ) (entries : List Entry) : off ≤ dataEnd off entries := by
  induction entries generalizing off with
  | nil => exact le_rfl
  | cons f entries ih =>
    have hrest := ih (place off f + f.size)
    have hplace := le_place off f
    rw [dataEnd]
    omega

theorem layoutEnd_append (tys : List Ty) (ty : Ty) : layoutEnd (tys ++ [ty]) =
    alignTo (layoutEnd tys) ty.getTypeAllocSize + ty.getTypeAllocSize := by
  unfold layoutEnd
  rw [List.foldl_append]
  rfl

theorem alignTo_of_dvd {align : ℕ} (h : align ∣ off) (hpos : 0 < align) : alignTo off align = off := by
  obtain ⟨k, rfl⟩ := h
  unfold alignTo
  rw [Nat.add_sub_assoc hpos, Nat.mul_add_div hpos, Nat.div_eq_of_lt (by omega), add_zero, mul_comm]

def dummies (off : ℕ) (f : Entry) : List Ty := if off % f.size = 0 then [] else [.Int32Ty]

/-- The offset of the first pass is the end of its struct type, and the length of the data. -/
structure FirstPass.Sound (s : FirstPass) : Prop where
  layout : layoutEnd s.ArgTypes = s.structOffset
  length : s.DataLen_CT = s.structOffset
  aligned : 4 ∣ s.structOffset

theorem FirstPass.next_eq (s : FirstPass) (f : Entry) : s.next f =
    ⟨s.ArgTypes ++ dummies s.structOffset f ++ [f.arg.ArgType],
      s.DataLen_CT + s.structOffset % f.size + f.size, place s.structOffset f + f.size⟩ := by
  unfold FirstPass.next dummies place
  by_cases h : s.structOffset % f.size = 0 <;> simp [h]

theorem layoutEnd_dummies {tys : List Ty} (hlayout : layoutEnd tys = off) (h : 4 ∣ off) :
    layoutEnd (tys ++ dummies off f) = place off f := by
  unfold dummies place
  split_ifs with hpad
  · rw [List.append_nil, hlayout, hpad, add_zero]
  · rw [layoutEnd_append, hlayout]
    show alignTo off 4 + 4 = _
    rw [alignTo_of_dvd h (by omega)]
    rcases f.size_cases with hs | hs <;> rw [hs] at hpad ⊢ <;> omega

theorem FirstPass.Sound.next {s : FirstPass} (h : s.Sound) : (s.next f).Sound := by
  have hsize : 0 < f.size := by rcases f.size_cases with hs | hs <;> omega
  rw [FirstPass.next_eq]
  refine ⟨?_, ?_, four_dvd_next h.aligned⟩
  · show layoutEnd (s.ArgTypes ++ dummies s.structOffset f ++ [f.arg.ArgType]) = _
    rw [layoutEnd_append, layoutEnd_dummies h.layout h.aligned]
    exact congrArg (· + f.size) (alignTo_of_dvd (size_dvd_place h.aligned) hsize)
  · show s.DataLen_CT + s.structOffset % f.size + f.size = place s.structOffset f + f.size
    rw [h.length]
    rfl

theorem layoutEnd_replicate (n : ℕ) : layoutEnd (List.replicate n .Int32Ty) = 4 * n := by
  induction n with
  | zero => rfl
  | succ n ih =>
    rw [List.replicate_succ', layoutEnd_append, ih]
    show alignTo (4 * n) 4 + 4 = 4 * (n + 1)
    rw [alignTo_of_dvd (Nat.dvd_mul_right 4 n) (by omega)]
    ring

theorem firstPass_start (n : ℕ) :
    FirstPass.Sound ⟨List.replicate n .Int32Ty, 4 * n, 4 * n⟩ :=
  ⟨layoutEnd_replicate n, rfl, Nat.dvd_mul_right 4 n⟩

theorem FirstPass.Sound.foldl {s : FirstPass} (h : s.Sound) (entries : List Entry) :
    (entries.foldl FirstPass.next s).Sound ∧
      (entries.foldl FirstPass.next s).structOffset = dataEnd s.structOffset entries ∧
      s.ArgTypes <+: (entries.foldl FirstPass.next s).ArgTypes := by
  induction entries generalizing s with
  | nil => exact ⟨h, rfl, List.prefix_rfl⟩
  | cons f entries ih =>
    obtain ⟨hsound, hoff, hext⟩ := ih h.next
    rw [FirstPass.next_eq] at hoff hext hsound
    rw [List.foldl_cons, FirstPass.next_eq]
    refine ⟨hsound, hoff, List.IsPrefix.trans ?_ hext⟩
    rw [List.append_assoc]
    exact List.prefix_append _ _

theorem firstPass_DataLen (entries : List Entry) :
    (firstPass entries).DataLen_CT = dataEnd (4 * (entries.length + 2)) entries := by
  obtain ⟨hsound, hoff, -⟩ := (firstPass_start (entries.length + 2)).foldl entries
  exact hsound.length.trans hoff

theorem structGEP_of_prefix {tys pre : List Ty} {ty : Ty} (h : pre ++ [ty] <+: tys) :
    structGEP tys pre.length = alignTo (layoutEnd pre) ty.getTypeAllocSize := by
  obtain ⟨rest, rfl⟩ := h
  unfold structGEP
  rw [List.append_assoc, List.take_left', List.getElem?_append_right le_rfl]
  · simp
  · rfl

/-- The words before the data are at multiples of 4. -/
theorem structGEP_word {n i : ℕ} {tys : List Ty} (h : List.replicate n .Int32Ty <+: tys) (hi : i < n) :
    structGEP tys i = 4 * i := by
  have hpre : List.replicate i Ty.Int32Ty ++ [.Int32Ty] <+: tys := by
    refine List.IsPrefix.trans ⟨List.replicate (n - (i + 1)) .Int32Ty, ?_⟩ h
    rw [← List.replicate_succ', List.replicate_append_replicate, Nat.add_sub_cancel' hi]
  have hgep := structGEP_of_prefix hpre
  rw [List.length_replicate, layoutEnd_replicate] at hgep
  exact hgep.trans (alignTo_of_dvd (Nat.dvd_mul_right 4 i) (by decide))

theorem ThirdPass.next_eq (tys : List Ty) (s : ThirdPass) (f : Entry) : s.next tys f =
    ⟨s.structIndex + (dummies s.structOffset f).length + 1, place s.structOffset f + f.size,
      s.stores ++ [⟨structGEP tys (s.structIndex + (dummies s.structOffset f).length),
        leBytes f.size f.stored⟩]⟩ := by
  unfold ThirdPass.next dummies place
  by_cases h : s.structOffset % f.size = 0 <;> simp [h]

/-- The third pass stores where the first has made room. -/
theorem thirdPass_foldl {s : FirstPass} (h : s.Sound) {tys : List Ty} (stores : List Store)
    (htys : (entries.foldl FirstPass.next s).ArgTypes = tys) :
    (entries.foldl (ThirdPass.next tys) ⟨s.ArgTypes.length, s.structOffset, stores⟩).stores =
      stores ++ dataStores s.structOffset entries := by
  induction entries generalizing s stores with
  | nil => simp [dataStores]
  | cons f entries ih =>
    have hsize : 0 < f.size := by rcases f.size_cases with hs | hs <;> omega
    have hnext : (s.next f).Sound := h.next
    rw [List.foldl_cons] at htys
    have hext := (hnext.foldl entries).2.2
    have hrest := ih hnext (stores ++ [⟨place s.structOffset f, leBytes f.size f.stored⟩]) htys
    rw [htys] at hext
    rw [FirstPass.next_eq] at hext hrest
    have hgep : structGEP tys (s.ArgTypes.length + (dummies s.structOffset f).length) =
        place s.structOffset f := by
      have hgep := structGEP_of_prefix hext
      rw [List.length_append, layoutEnd_dummies h.layout h.aligned] at hgep
      exact hgep.trans (alignTo_of_dvd (size_dvd_place h.aligned) hsize)
    rw [List.foldl_cons, ThirdPass.next_eq]
    dsimp only
    rw [hgep]
    simp only [List.length_append, List.length_singleton] at hrest
    rw [hrest, dataStores, List.append_assoc]
    rfl

def textEnd (off : ℕ) (entries : List Entry) : ℕ := off + (entries.map fun f => f.text.length).sum

def Entry.Lowered (f : Entry) : Prop := f.arg.entry = some f

theorem Entry.Lowered.text_eq_nil {f : Entry} (h : f.Lowered) (hs : ∀ e, f.arg ≠ .string e) :
    f.text = [] := by
  obtain ⟨arg, text⟩ := f
  cases arg with
  | string e => exact absurd rfl (hs e)
  | int32 v | int64 v | double v | pointer v =>
    have htext := congrArg Entry.text (Option.some.inj h)
    exact htext.symm

theorem dataStores_between (off : ℕ) (entries : List Entry) :
    Store.Between off (dataStores off entries) (dataEnd off entries) := by
  induction entries generalizing off with
  | nil => exact le_rfl
  | cons f entries ih =>
    refine ⟨le_place off f, ?_⟩
    simp only [Store.finish, length_leBytes]
    exact ih _

theorem copyStrings_between (off : ℕ) (hentries : ∀ f ∈ entries, f.Lowered) :
    Store.Between off (copyStrings off entries) (textEnd off entries) := by
  induction entries generalizing off with
  | nil => exact le_rfl
  | cons f entries ih =>
    have hrest := ih (off + f.text.length) fun g hg => hentries g (List.mem_cons_of_mem _ hg)
    have hend : textEnd (off + f.text.length) entries = textEnd off (f :: entries) := by
      simp [textEnd, add_assoc]
    rw [hend] at hrest
    by_cases hs : ∃ e, f.arg = .string e
    · obtain ⟨e, he⟩ := hs
      simp only [copyStrings, he]
      exact ⟨le_rfl, hrest⟩
    · have htext := (hentries f List.mem_cons_self).text_eq_nil fun e he => hs ⟨e, he⟩
      rw [htext, List.length_nil, add_zero] at hrest
      cases harg : f.arg with
      | string e => exact absurd ⟨e, harg⟩ hs
      | int32 v | int64 v | double v | pointer v =>
        simp only [copyStrings, harg]
        exact hrest

def keyStores : ℕ → List Entry → List Store
  | _, [] => []
  | offset, f :: entries => ⟨offset, leBytes 4 f.key⟩ :: keyStores (offset + 4) entries

theorem keyStores_between (off : ℕ) (entries : List Entry) :
    Store.Between off (keyStores off entries) (off + 4 * entries.length) := by
  induction entries generalizing off with
  | nil => exact le_rfl
  | cons f entries ih =>
    refine ⟨le_rfl, ?_⟩
    have hrest := ih (off + 4)
    have hend : off + 4 + 4 * entries.length = off + 4 * (f :: entries).length := by
      rw [List.length_cons]
      ring
    simp only [Store.finish, length_leBytes]
    rwa [hend] at hrest

theorem mapIdx_eq_keyStores (off : ℕ) (entries : List Entry) :
    entries.mapIdx (fun i f => (⟨off + 4 * i, leBytes 4 f.key⟩ : Store)) = keyStores off entries := by
  induction entries generalizing off with
  | nil => rfl
  | cons f entries ih =>
    rw [List.mapIdx_cons, keyStores, ← ih (off + 4)]
    congr 2
    funext i g
    rw [mul_add, mul_one, add_right_comm, add_assoc off]

def dataLen (entries : List Entry) : ℕ := dataEnd (4 * (entries.length + 2)) entries

/-- The lengths of the data and of the buffer fit their entries. -/
structure Fits (entries : List Entry) : Prop where
  data : dataLen entries < 2 ^ 31
  buffer : textEnd (dataLen entries) entries < 2 ^ 32

def layoutStores (entries : List Entry) : List Store :=
  [⟨0, leBytes 4 (dataLen entries)⟩, ⟨4, leBytes 4 entries.length⟩] ++ keyStores 8 entries ++
    dataStores (4 * (entries.length + 2)) entries ++ copyStrings (dataLen entries) entries

/-- What is emitted in terms of the layout, with the lengths cut to 32 bits. -/
theorem emitEntries_layout (entries : List Entry) :
    emitEntries entries = ⟨textEnd (dataLen entries) entries % 2 ^ 32,
      [⟨0, leBytes 4 (dataLen entries % 2 ^ 32)⟩, ⟨4, leBytes 4 entries.length⟩] ++
        keyStores 8 entries ++ dataStores (4 * (entries.length + 2)) entries ++
          copyStrings (dataLen entries % 2 ^ 32) entries⟩ := by
  have hsound := firstPass_start (entries.length + 2)
  have hwords : List.replicate (entries.length + 2) Ty.Int32Ty <+: (firstPass entries).ArgTypes :=
    (hsound.foldl entries).2.2
  have hlen : (firstPass entries).DataLen_CT = dataLen entries := firstPass_DataLen entries
  have hkeys : entries.mapIdx (fun i f => (⟨structGEP (firstPass entries).ArgTypes (i + 2),
      leBytes 4 f.key⟩ : Store)) = keyStores 8 entries := by
    rw [← mapIdx_eq_keyStores]
    apply List.ext_getElem (by simp)
    intro i hi _
    have hi : i < entries.length := by simpa using hi
    have hgep : structGEP (firstPass entries).ArgTypes (i + 2) = 8 + 4 * i := by
      rw [show 8 + 4 * i = 4 * (i + 2) from by ring]
      exact structGEP_word hwords (by omega)
    simp [hgep]
  have hthird : thirdPass (firstPass entries).ArgTypes entries =
      dataStores (4 * (entries.length + 2)) entries := by
    have hfold := thirdPass_foldl hsound [] (show _ = (firstPass entries).ArgTypes from rfl)
    rw [List.length_replicate] at hfold
    unfold thirdPass
    rw [add_comm 2]
    exact hfold
  unfold emitEntries
  dsimp only
  rw [hlen, hkeys, hthird, structGEP_word hwords (show 0 < _ by omega),
    structGEP_word hwords (show 1 < _ by omega)]
  rfl

theorem emitEntries_eq (hbuffer : textEnd (dataLen entries) entries < 2 ^ 32) :
    emitEntries entries = ⟨textEnd (dataLen entries) entries, layoutStores entries⟩ := by
  have hdata : dataLen entries ≤ textEnd (dataLen entries) entries := Nat.le_add_right _ _
  rw [emitEntries_layout, Nat.mod_eq_of_lt hbuffer, Nat.mod_eq_of_lt (hdata.trans_lt hbuffer)]
  rfl

/-- All stores are inside the buffer, one behind the other. -/
theorem layoutStores_between (hentries : ∀ f ∈ entries, f.Lowered) :
    Store.Between 0 (layoutStores entries) (textEnd (dataLen entries) entries) := by
  have hheader : Store.Between 0 [⟨0, leBytes 4 (dataLen entries)⟩, ⟨4, leBytes 4 entries.length⟩] 8 :=
    ⟨le_rfl, le_rfl, le_rfl⟩
  have hkeys := keyStores_between 8 entries
  have hdata := dataStores_between (4 * (entries.length + 2)) entries
  have hwords : 8 + 4 * entries.length = 4 * (entries.length + 2) := by ring
  rw [hwords] at hkeys
  exact ((hheader.append hkeys).append hdata).append (copyStrings_between _ hentries)

/-- Memory holds the keys, the data and the strings of the entries from three offsets of the
buffer on. -/
def Laid (mem : ℕ → Byte) (buf : ℕ) : ℕ → ℕ → ℕ → List Entry → Prop
  | _, _, _, [] => True
  | key, data, str, f :: entries =>
    readLE mem (buf + key) 4 = f.key ∧
      readLE mem (buf + place data f) f.size = f.stored % 256 ^ f.size ∧
      Store.Held ⟨str, f.text⟩ mem buf ∧
      Laid mem buf (key + 4) (place data f + f.size) (str + f.text.length) entries

theorem Arg.key_mem (a : Arg) : a.getType.getTypeID ∈ TypeID.all ∧ a.numbits ∈ [0, 1, 32, 64] := by
  cases a <;> simp [Arg.getType, Arg.numbits, Ty.getTypeID, Ty.getScalarSizeInBits, TypeID.all]

theorem Entry.key_lt (f : Entry) : f.key < 256 ^ 4 := by
  have hkeys : ∀ id ∈ TypeID.all, ∀ n ∈ [0, 1, 32, 64], packTyBitlen id.value n < 256 ^ 4 := by
    decide
  exact hkeys _ f.arg.key_mem.1 _ f.arg.key_mem.2

theorem laid_of_held {mem : ℕ → Byte} {buf key data str : ℕ} (hentries : ∀ f ∈ entries, f.Lowered)
    (hkeys : ∀ s ∈ keyStores key entries, s.Held mem buf)
    (hdata : ∀ s ∈ dataStores data entries, s.Held mem buf)
    (hstrings : ∀ s ∈ copyStrings str entries, s.Held mem buf) : Laid mem buf key data str entries := by
  induction entries generalizing key data str with
  | nil => trivial
  | cons f entries ih =>
    have hrest := fun g hg => hentries g (List.mem_cons_of_mem f hg)
    have hkeys' := fun s hs => hkeys s (List.mem_cons_of_mem _ hs)
    have hdata' := fun s hs => hdata s (List.mem_cons_of_mem _ hs)
    have hkey := (hkeys _ List.mem_cons_self).readLE
    rw [Nat.mod_eq_of_lt f.key_lt] at hkey
    refine ⟨hkey, (hdata _ List.mem_cons_self).readLE, ?_⟩
    by_cases hs : ∃ e, f.arg = .string e
    · obtain ⟨e, he⟩ := hs
      simp only [copyStrings, he] at hstrings
      exact ⟨hstrings _ List.mem_cons_self, ih hrest hkeys' hdata' fun s hs =>
        hstrings s (List.mem_cons_of_mem _ hs)⟩
    · have htext := (hentries f List.mem_cons_self).text_eq_nil fun e he => hs ⟨e, he⟩
      have hstrings' : ∀ s ∈ copyStrings str entries, s.Held mem buf := by
        cases harg : f.arg with
        | string e => exact absurd ⟨e, harg⟩ hs
        | int32 v | int64 v | double v | pointer v =>
          simp only [copyStrings, harg] at hstrings
          exact hstrings
      rw [htext]
      exact ⟨fun i hi => absurd hi (Nat.not_lt_zero i), ih hrest hkeys' hdata' hstrings'⟩

end Aomp.Arguments
