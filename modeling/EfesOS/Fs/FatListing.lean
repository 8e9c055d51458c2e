import EfesOS.Fs.FatRead

/-!
# Reading a file under its listed name

`fat_file_name` and `fat_read_file` go through the same root directory (`rootDirectory`), and the
listed text of an entry is the text its short name came from, in upper case (`entryToText_eq`,
`shortNameFromText_map`). But a listed file may have attributes that reading refuses, and those are
all that can keep a listed file with a good chain from being read (`listed_file_read_iff`).
-/

set_option autoImplicit false

namespace EfesOS.Fs.Fat

open EfesOS.Foundation
open EfesOS.Fs.Journal (Sector)

universe u

/-! ### The root directory -/

section Root

variable (volume : FatVolume) (disk : Disk)

def inUse (entry : DirectoryEntry) : Bool := entry.byteAt 0 ≠ 0

/-- The entries of a sector of the root directory. -/
def rootItems (sectorIndex : ℕ) (sector : Sector) : List DirectoryEntry :=
  ((List.range 16).takeWhile fun item ↦ sectorIndex * 16 + item < volume.rootEntries).map
    (candidateAt sector)

/-- The entries in front of the first that was never used and of the first sector that cannot be
read. -/
def entriesFrom : List ℕ → List DirectoryEntry
  | [] => []
  | sectorIndex :: rest =>
    match readSector volume disk (volume.rootStart + sectorIndex) with
    | none => []
    | some sector =>
      (rootItems volume sectorIndex sector).takeWhile inUse ++
        if (rootItems volume sectorIndex sector).all inUse then entriesFrom rest else []

def rootDirectory : List DirectoryEntry :=
  entriesFrom volume disk (List.range ((volume.rootEntries + 15) / 16))

/-- The entries a lookup stops at. -/
def answers (shortName : ShortName) (entry : DirectoryEntry) : Bool :=
  ¬(entry.byteAt 0 = 0xE5 ∨ entry.byteAt 11 = fatAttrLfn ∨
    entry.byteAt 11 &&& fatAttrVolumeId ≠ 0) ∧ nameMatches entry shortName

variable {volume disk} {shortName : ShortName} {entry : DirectoryEntry} {index : ℕ}

theorem scanItems_eq (shortName : ShortName) (sector : Sector) (items : List ℕ) :
    scanItems shortName sector items =
      match ((items.map (candidateAt sector)).takeWhile inUse).find? (answers shortName) with
      | some entry => .found entry
      | none => if (items.map (candidateAt sector)).all inUse then .onward else .stop := by
  induction items with
  | nil => rfl
  | cons item rest ih =>
    rw [scanItems, List.map_cons, List.takeWhile_cons, List.all_cons]
    by_cases hused : (candidateAt sector item).byteAt 0 = 0
    · simp [inUse, hused]
    · simp only [inUse, ne_eq, hused, not_false_eq_true, decide_true, if_true, Bool.true_and,
        List.find?_cons, if_false]
      by_cases hskipped : (candidateAt sector item).byteAt 0 = 0xE5 ∨
          (candidateAt sector item).byteAt 11 = fatAttrLfn ∨
          (candidateAt sector item).byteAt 11 &&& fatAttrVolumeId ≠ 0
      · have hnot : answers shortName (candidateAt sector item) = false := by
          simp only [answers, hskipped, not_true_eq_false, false_and, decide_false]
        rw [if_pos hskipped, hnot, ih]
      · rw [if_neg hskipped]
        cases hname : nameMatches (candidateAt sector item) shortName with
        | true => simp [answers, hskipped, hname]
        | false =>
          have hnot : answers shortName (candidateAt sector item) = false := by
            simp [answers, hname]
          rw [hnot, ih]
          rfl

theorem scanSectors_of_find {sectors : List ℕ}
    (hfind : (entriesFrom volume disk sectors).find? (answers shortName) = some entry) :
    scanSectors volume disk shortName (fun sectorIndex ↦ volume.rootStart + sectorIndex)
      (fun sectorIndex ↦ (List.range 16).takeWhile fun item ↦
        sectorIndex * 16 + item < volume.rootEntries) sectors = .found entry := by
  induction sectors with
  | nil => cases hfind
  | cons sectorIndex rest ih =>
    rw [entriesFrom] at hfind
    rw [scanSectors]
    cases hread : readSector volume disk (volume.rootStart + sectorIndex) with
    | none =>
      rw [hread] at hfind
      cases hfind
    | some sector =>
      rw [hread] at hfind
      dsimp only at hfind ⊢
      rw [scanItems_eq, ← rootItems]
      rw [List.find?_append] at hfind
      cases hfirst : ((rootItems volume sectorIndex sector).takeWhile inUse).find?
        (answers shortName) with
      | some found =>
        rw [hfirst, Option.some_or] at hfind
        cases hfind
        rfl
      | none =>
        rw [hfirst, Option.none_or] at hfind
        split_ifs at hfind with hall
        · rw [if_pos hall]
          exact ih hfind
        · cases hfind

/-- The file a listing finds in a sector, with what stands in front of it. -/
theorem listItems_found {sector : Sector} {items : List ℕ} {count : ℕ}
    (hlist : listItems (some index) sector items count = .found entry) :
    ∃ before after, (items.map (candidateAt sector)).takeWhile inUse = before ++ entry :: after ∧
      isFile entry = true ∧ count + before.countP isFile = index := by
  induction items generalizing count with
  | nil => cases hlist
  | cons item rest ih =>
    rw [listItems] at hlist
    split_ifs at hlist with hunused hfile hwanted
    all_goals rw [List.map_cons, List.takeWhile_cons_of_pos (by simpa [inUse] using hunused)]
    · obtain rfl := Listing.found.inj hlist
      exact ⟨[], _, rfl, hfile, (Option.some.inj hwanted).symm⟩
    all_goals
      obtain ⟨before, after, hentries, hentry, hindex⟩ := ih hlist
      refine ⟨_ :: before, after, congrArg _ hentries, hentry, ?_⟩
      rw [List.countP_cons]
    · rw [if_pos hfile]
      omega
    · rw [if_neg hfile]
      exact hindex

theorem listItems_onward {wanted : Option ℕ} {sector : Sector} {items : List ℕ} {count total : ℕ}
    (hlist : listItems wanted sector items count = .onward total) :
    (items.map (candidateAt sector)).all inUse = true ∧
      total = count + (items.map (candidateAt sector)).countP isFile := by
  induction items generalizing count with
  | nil =>
    cases hlist
    exact ⟨rfl, rfl⟩
  | cons item rest ih =>
    rw [listItems] at hlist
    split_ifs at hlist with hunused hfile hwanted
    all_goals
      obtain ⟨hall, htotal⟩ := ih hlist
      rw [List.map_cons, List.all_cons, hall, Bool.and_true, List.countP_cons]
      refine ⟨by simpa [inUse] using hunused, ?_⟩
    · rw [if_pos hfile, htotal]
      omega
    · rw [if_neg hfile, htotal, Nat.add_zero]

theorem listSectors_found {sectors : List ℕ} {count : ℕ}
    (hlist : listSectors volume disk (some index) sectors count = .found entry) :
    ∃ before after, entriesFrom volume disk sectors = before ++ entry :: after ∧
      isFile entry = true ∧ count + before.countP isFile = index := by
  induction sectors generalizing count with
  | nil => cases hlist
  | cons sectorIndex rest ih =>
    rw [listSectors] at hlist
    rw [entriesFrom]
    cases hread : readSector volume disk (volume.rootStart + sectorIndex) with
    | none =>
      rw [hread] at hlist
      cases hlist
    | some sector =>
      rw [hread] at hlist
      dsimp only at hlist ⊢
      split at hlist
      next total honward =>
        obtain ⟨hall, rfl⟩ := listItems_onward honward
        obtain ⟨before, after, hentries, hentry, hindex⟩ := ih hlist
        rw [← rootItems] at hall
        have hwhole := List.takeWhile_eq_self_iff.mpr (List.all_eq_true.mp hall)
        refine ⟨rootItems volume sectorIndex sector ++ before, after, ?_, hentry, ?_⟩
        · rw [hwhole, if_pos hall, hentries, List.append_assoc]
        · rw [List.countP_append, ← Nat.add_assoc]
          exact hindex
      next =>
        obtain ⟨before, after, hentries, hentry, hindex⟩ := listItems_found hlist
        rw [← rootItems] at hentries
        rw [hentries, List.append_assoc, List.cons_append]
        exact ⟨before, _, rfl, hentry, hindex⟩

end Root

/-! ### Short names -/

/-- The two parts of a name that is taken. -/
structure IsName (stem extension : List UInt8) : Prop where
  stem_le : stem.length ≤ 8
  extension_le : extension.length ≤ 3
  accepted : ∀ character ∈ stem ++ extension, characterRefused character = false

def nameText (stem extension : List UInt8) : List UInt8 :=
  if extension = [] then stem else stem ++ 0x2E :: extension

/-- The parts of a short name padded with spaces. -/
def padded (stem extension : List UInt8) : ShortName :=
  Buffer.setBytes (Buffer.setBytes (Vector.replicate 11 0x20) 0 stem) 8 extension

theorem upperCase_facts (character : UInt8) :
    ((upperCase character = 0 ↔ character = 0) ∧ (upperCase character = 0x2E ↔ character = 0x2E) ∧
      characterRefused (upperCase character) = characterRefused character ∧
      upperCase (upperCase character) = upperCase character) ∧
    (characterRefused character = false →
      upperCase character ≠ 0 ∧ upperCase character ≠ 0x20 ∧ upperCase character ≠ 0x2F) := by
  have hall : ∀ code : Fin 256,
      ((upperCase ⟨⟨code⟩⟩ = 0 ↔ (⟨⟨code⟩⟩ : UInt8) = 0) ∧
        (upperCase ⟨⟨code⟩⟩ = 0x2E ↔ (⟨⟨code⟩⟩ : UInt8) = 0x2E) ∧
        characterRefused (upperCase ⟨⟨code⟩⟩) = characterRefused ⟨⟨code⟩⟩ ∧
        upperCase (upperCase ⟨⟨code⟩⟩) = upperCase ⟨⟨code⟩⟩) ∧
      (characterRefused ⟨⟨code⟩⟩ = false →
        upperCase ⟨⟨code⟩⟩ ≠ 0 ∧ upperCase ⟨⟨code⟩⟩ ≠ 0x20 ∧ upperCase ⟨⟨code⟩⟩ ≠ 0x2F) := by
    decide +kernel
  exact hall character.toFin

section Names

variable {text stem extension characters rest : List UInt8} {length index output : ℕ}
  {shortName : ShortName}

/-- Names are taken in either case. -/
theorem shortNameFromText_map (text : List UInt8) :
    shortNameFromText (text.map upperCase) = shortNameFromText text := by
  have hlength : ∀ limit, CString.boundedLength (text.map upperCase) limit =
      CString.boundedLength text limit := by
    induction text with
    | nil => exact fun _ ↦ rfl
    | cons character rest ih =>
      rintro (_ | limit)
      · rfl
      · simp [CString.boundedLength, (upperCase_facts character).1.1, ih]
  have hfind : ∀ (characters : List UInt8) length index dot,
      findDot length (characters.map upperCase) index dot =
        findDot length characters index dot := by
    intro characters length
    induction characters with
    | nil => exact fun _ _ ↦ rfl
    | cons character rest ih => simp [findDot, (upperCase_facts character).1.2.1, ih]
  have hfill : ∀ (characters : List UInt8) output (shortName : ShortName),
      fillShortName (characters.map upperCase) output shortName =
        fillShortName characters output shortName := by
    intro characters
    induction characters with
    | nil => exact fun _ _ ↦ rfl
    | cons character rest ih => simp [fillShortName, (upperCase_facts character).1, ih]
  simp only [shortNameFromText, hlength, ← List.map_take, hfind, hfill]

/-- The dot of a name, or that there is none. -/
theorem findDot_cases {dot found : ℕ} (hlength : index + characters.length = length)
    (hfind : findDot length characters index dot = some found) :
    0x2E ∉ characters ∧ found = dot ∨ ∃ stem extension,
      characters = stem ++ 0x2E :: extension ∧ 0x2E ∉ stem ∧ 0x2E ∉ extension ∧
        extension ≠ [] ∧ found = index + stem.length ∧ dot = length := by
  induction characters generalizing index dot with
  | nil => exact .inl ⟨List.not_mem_nil, (Option.some.inj hfind).symm⟩
  | cons character rest ih =>
    rw [findDot] at hfind
    rw [List.length_cons] at hlength
    split_ifs at hfind with hdot hrefused
    · subst hdot
      simp only [not_or, not_not] at hrefused
      rcases ih (by omega) hfind with ⟨hrest, rfl⟩ | ⟨_, _, -, -, -, -, -, hend⟩
      · refine .inr ⟨[], rest, rfl, List.not_mem_nil, hrest, ?_, rfl, hrefused.1⟩
        rintro rfl
        exact hrefused.2.2 hlength
      · omega
    · rcases ih (by omega) hfind with ⟨hrest, rfl⟩ | ⟨stem, extension, rfl, hstem, hothers⟩
      · exact .inl ⟨by simp [Ne.symm hdot, hrest], rfl⟩
      · refine .inr ⟨character :: stem, extension, rfl, by simp [Ne.symm hdot, hstem],
          hothers.1, hothers.2.1, ?_, hothers.2.2.2⟩
        rw [hothers.2.2.1, List.length_cons]
        omega

theorem fillShortName_append {result : ℕ × ShortName} (hdots : 0x2E ∉ characters)
    (hfill : fillShortName (characters ++ rest) output shortName = some result) :
    (∀ character ∈ characters, characterRefused character = false) ∧
      fillShortName rest (output + characters.length)
        (shortName.setBytes output (characters.map upperCase)) = some result := by
  induction characters generalizing output shortName with
  | nil => exact ⟨by simp, hfill⟩
  | cons character others ih =>
    obtain ⟨hne, hothers⟩ := not_or.mp (mt List.mem_cons.mpr hdots)
    rw [List.cons_append, fillShortName, if_neg (Ne.symm hne)] at hfill
    split_ifs at hfill with hrefused hfull
    obtain ⟨haccepted, hrest⟩ := ih hothers hfill
    rw [Nat.add_right_comm] at hrest
    exact ⟨List.forall_mem_cons.mpr ⟨Bool.not_eq_true _ ▸ hrefused, haccepted⟩, hrest⟩

/-- What `short_name_from_text` takes, and what it makes of it. -/
theorem exists_parts (hname : shortNameFromText text = some shortName) :
    ∃ stem extension, IsName stem extension ∧ CString.text text = nameText stem extension ∧
      shortName = padded (stem.map upperCase) (extension.map upperCase) := by
  unfold shortNameFromText at hname
  dsimp only at hname
  split_ifs at hname with hlength
  have hwhole : CString.boundedLength text 13 = _ :=
    CString.length_text_of_boundedLength_lt (by omega)
  rw [hwhole, CString.take_eq_take_text le_rfl, List.take_length] at hname
  cases hfind : findDot (CString.text text).length (CString.text text) 0
      (CString.text text).length with
  | none =>
    rw [hfind] at hname
    cases hname
  | some dot =>
    rw [hfind] at hname
    dsimp only at hname
    split_ifs at hname with hplaces
    cases hfill : fillShortName (CString.text text) 0 (Vector.replicate 11 0x20) with
    | none =>
      rw [hfill] at hname
      cases hname
    | some result =>
      rw [hfill] at hname
      dsimp only at hname
      split_ifs at hname
      obtain rfl := Option.some.inj hname
      rcases findDot_cases (Nat.zero_add _) hfind with ⟨hdots, rfl⟩ |
        ⟨stem, extension, htext, hdots, hagain, hsome, rfl, -⟩
      · rw [← List.append_nil (CString.text text)] at hfill
        obtain ⟨haccepted, hresult⟩ := fillShortName_append hdots hfill
        obtain rfl := Option.some.inj hresult
        exact ⟨CString.text text, [], ⟨by omega, Nat.zero_le 3, by simpa using haccepted⟩, rfl,
          rfl⟩
      · rw [htext, List.length_append, List.length_cons] at hplaces
        rw [htext] at hfill
        obtain ⟨hstem, hrest⟩ := fillShortName_append hdots hfill
        rw [fillShortName, if_pos rfl, ← List.append_nil extension] at hrest
        obtain ⟨hextension, hresult⟩ := fillShortName_append hagain hrest
        obtain rfl := Option.some.inj hresult
        exact ⟨stem, extension, ⟨by omega, by omega,
          List.forall_mem_append.mpr ⟨hstem, hextension⟩⟩, htext.trans (if_neg hsome).symm, rfl⟩

/-- The characters of a name that is taken. -/
theorem shortNameFromText_text (hname : shortNameFromText text = some shortName) :
    (∀ character ∈ CString.text text, upperCase character ≠ 0 ∧ upperCase character ≠ 0x2F) ∧
      (CString.text text).length < 13 ∧
      shortNameFromText (CString.text text) = some shortName := by
  obtain ⟨stem, extension, hparts, hwhole, -⟩ := exists_parts hname
  have hstem := hparts.stem_le
  have hextension := hparts.extension_le
  refine ⟨fun character hmem ↦ ?_, ?_, ?_⟩
  · have hcases : character = 0x2E ∨ character ∈ stem ++ extension := by
      rw [hwhole, nameText] at hmem
      split_ifs at hmem
      · exact .inr (List.mem_append_left _ hmem)
      · simp only [List.mem_append, List.mem_cons] at hmem ⊢
        tauto
    rcases hcases with rfl | hmem
    · decide
    · have hfacts := (upperCase_facts character).2 (hparts.accepted character hmem)
      exact ⟨hfacts.1, hfacts.2.2⟩
  · rw [hwhole, nameText]
    split_ifs
    · omega
    · rw [List.length_append, List.length_cons]
      omega
  · rw [← hname]
    simp only [shortNameFromText, CString.boundedLength_eq, CString.text_text,
      CString.take_eq_take_text (min_le_right 13 (CString.text text).length)]

theorem appendCharacters_append {capacity : ℕ} (hspaces : 0x20 ∉ characters)
    (hroom : text.length + characters.length < capacity) (count : ℕ) :
    appendCharacters capacity (characters ++ List.replicate count 0x20) text =
      text ++ characters := by
  induction characters generalizing text with
  | nil =>
    cases count with
    | zero => exact (List.append_nil text).symm
    | succ count => exact (if_pos rfl).trans (List.append_nil text).symm
  | cons character others ih =>
    obtain ⟨hne, hothers⟩ := not_or.mp (mt List.mem_cons.mpr hspaces)
    rw [List.length_cons] at hroom
    rw [List.cons_append, appendCharacters, if_neg (Ne.symm hne), if_pos (by omega),
      ih hothers (by rw [List.length_append, List.length_singleton]; omega), List.append_assoc]
    rfl

theorem slice_padded (hstem : stem.length ≤ 8) (hextension : extension.length ≤ 3) :
    (padded stem extension).slice 0 8 = stem ++ List.replicate (8 - stem.length) 0x20 ∧
      (padded stem extension).slice 8 3 =
        extension ++ List.replicate (3 - extension.length) 0x20 := by
  have hspaces : ∀ index < 11, Buffer.byteAt (Vector.replicate 11 0x20) index = 0x20 := by
    decide
  constructor <;>
  · refine List.ext_getElem (by simp; omega) fun index hleft _ ↦ ?_
    have hindex := hleft
    rw [Buffer.length_slice] at hindex
    simp only [Buffer.slice, List.getElem_map, List.getElem_range, padded, Buffer.byteAt_setBytes,
      List.getElem_append, List.getElem_replicate]
    split_ifs <;> first | omega | exact hspaces _ (by omega) | simp_all

/-- An entry is listed under the upper-case text of its name. -/
theorem entryToText_eq (h : IsName stem extension) {entry : DirectoryEntry} {capacity : ℕ}
    (hname : nameMatches entry (padded (stem.map upperCase) (extension.map upperCase)) = true)
    (hcapacity : 13 ≤ capacity) :
    entryToText entry capacity = (nameText stem extension).map upperCase := by
  have hstem := h.stem_le
  have hextension := h.extension_le
  have hslice : ∀ offset length, offset + length ≤ 11 → entry.slice offset length =
      (padded (stem.map upperCase) (extension.map upperCase)).slice offset length := by
    simp only [nameMatches, List.all_eq_true, List.mem_range, beq_iff_eq] at hname
    exact fun offset length hfits ↦ List.map_congr_left fun index hindex ↦
      hname _ (by have := List.mem_range.mp hindex; omega)
  obtain ⟨hfront, hback⟩ := @slice_padded (stem.map upperCase) (extension.map upperCase)
    (by simpa using hstem) (by simpa using hextension)
  have hspaces : ∀ part : List UInt8, (∀ character ∈ part, character ∈ stem ++ extension) →
      0x20 ∉ part.map upperCase := by
    intro part hpart hmem
    obtain ⟨character, hcharacter, hspace⟩ := List.mem_map.mp hmem
    exact ((upperCase_facts character).2 (h.accepted _ (hpart _ hcharacter))).2.1 hspace
  have hfirst : entry.byteAt 8 = (entry.slice 8 3).headD 0 := rfl
  have hstemSpaces := hspaces stem fun _ ↦ List.mem_append_left _
  have hextensionSpaces := hspaces extension fun _ ↦ List.mem_append_right _
  rw [entryToText, hslice 0 8 (by omega), hfront,
    appendCharacters_append hstemSpaces (by simp; omega), List.nil_append, hfirst,
    hslice 8 3 (by omega), hback]
  cases extension with
  | nil => exact if_neg fun hdot ↦ hdot.1 rfl
  | cons character rest =>
    rw [List.length_cons] at hextension
    rw [if_pos ⟨fun hspace ↦ hextensionSpaces (hspace ▸ List.mem_cons_self), by simp; omega⟩,
      appendCharacters_append hextensionSpaces (by simp; omega), nameText, if_neg (by simp),
      List.map_append, List.append_assoc]
    rfl

end Names

/-! ### Reading -/

section Reading

variable {volume : FatVolume} {disk : Disk} {name : List UInt8}

theorem findPathFrom_append (hslashes : 0x2F ∉ name) {component : List UInt8}
    (hlength : component.length + name.length < 13) (rest : List UInt8) (directory : Directory) :
    findPathFrom volume disk (name ++ rest) component directory =
      findPathFrom volume disk rest (component ++ name) directory := by
  induction name generalizing component with
  | nil => rw [List.nil_append, List.append_nil]
  | cons character name ih =>
    obtain ⟨hne, hname⟩ := not_or.mp (mt List.mem_cons.mpr hslashes)
    rw [List.length_cons] at hlength
    rw [List.cons_append, findPathFrom, if_neg (Ne.symm hne), if_neg (by omega),
      ih hname (by rw [List.length_append, List.length_singleton]; omega), List.append_assoc]
    rfl

/-- What the listed name of an entry has to lead to. -/
structure Openable (volume : FatVolume) (disk : Disk) (before : List DirectoryEntry)
    (entry : DirectoryEntry) (capacity : ℕ) : Prop where
  named : ∃ text shortName, shortNameFromText text = some shortName ∧
    nameMatches entry shortName = true
  first : ∀ earlier ∈ before, earlier.byteAt 0 ≠ 0xE5 →
    earlier.byteAt 11 &&& fatAttrVolumeId = 0 →
    ∃ index < 11, earlier.byteAt index ≠ entry.byteAt index
  fits : entry.readU32 28 ≤ capacity
  chained : (entry.readU32 28 = 0 ∧ entry.readU16 26 = 0) ∨
    (0 < entry.readU32 28 ∧ ChainReadable volume disk (entry.readU16 26) (entry.readU32 28))
  acyclic : Set.InjOn (chain volume disk (entry.readU16 26))
    (Set.Iio (clustersOf volume (entry.readU32 28)))

variable {before after : List DirectoryEntry} {entry : DirectoryEntry} {capacity : ℕ}

/-- A chain that does not come back to a cluster has no more clusters than there are. -/
theorem Openable.bounded (h : Openable volume disk before entry capacity)
    (hpos : 0 < clusterBytes volume) :
    entry.readU32 28 ≤ volume.clusterCount * clusterBytes volume := by
  rcases h.chained with ⟨hempty, -⟩ | ⟨-, hchain⟩
  · omega
  · by_contra hlong
    have hmore := (lt_clustersOf_iff hpos).2 (Nat.not_le.1 hlong)
    have hcard := Finset.card_le_card_of_injOn (s := Finset.range
      (clustersOf volume (entry.readU32 28))) (t := Finset.Ico 2 (volume.clusterCount + 2)) _
      (fun index hindex ↦ Finset.mem_coe.2 (Finset.mem_Ico.2
        (hchain.clusters index (Finset.mem_range.1 hindex)))) (by simpa using h.acyclic)
    rw [Finset.card_range, Nat.card_Ico] at hcard
    omega

/-- The attributes of a file say whether it can be read. -/
theorem attributes_of_isFile (hfile : isFile entry = true) :
    entry.byteAt 0 ≠ 0xE5 ∧ entry.byteAt 11 ≠ fatAttrLfn ∧
      entry.byteAt 11 &&& fatAttrVolumeId = 0 ∧
      (entry.byteAt 11 &&& 0x1F = 0 ↔ entry.byteAt 11 &&& 0x07 = 0) := by
  have hall : ∀ code : Fin 256, (⟨⟨code⟩⟩ : UInt8) &&& (fatAttrDirectory ||| fatAttrVolumeId) = 0 →
      (⟨⟨code⟩⟩ : UInt8) &&& fatAttrVolumeId = 0 ∧
        ((⟨⟨code⟩⟩ : UInt8) &&& 0x1F = 0 ↔ (⟨⟨code⟩⟩ : UInt8) &&& 0x07 = 0) := by
    decide +kernel
  obtain ⟨hdeleted, hlong, hplain⟩ := of_decide_eq_true hfile
  exact ⟨hdeleted, hlong, hall (entry.byteAt 11).toFin hplain⟩

section

variable (h : Openable volume disk before entry capacity)
  (hroot : rootDirectory volume disk = before ++ entry :: after) (hfile : isFile entry = true)
include h hroot hfile

/-- The lookup of the short name of an entry finds it. -/
theorem Openable.scanRoot {shortName : ShortName} (hmatches : nameMatches entry shortName = true) :
    scanRoot volume disk shortName = .found entry := by
  apply scanSectors_of_find
  obtain ⟨hdeleted, hlong, hlabel, -⟩ := attributes_of_isFile hfile
  rw [← rootDirectory, hroot, List.find?_append, List.find?_eq_none.2, Option.none_or,
    List.find?_cons_of_pos (by simp [answers, hdeleted, hlong, hlabel, hmatches])]
  intro earlier hmem hanswers
  simp only [answers, not_or, not_not, decide_eq_true_eq] at hanswers
  obtain ⟨index, hindex, hne⟩ := h.first earlier hmem hanswers.1.1 hanswers.1.2.2
  simp only [nameMatches, List.all_eq_true, List.mem_range, beq_iff_eq] at hanswers hmatches
  exact hne ((hanswers.2 index hindex).trans (hmatches index hindex).symm)

/-- The listed name leads to the entry. -/
theorem Openable.findPath {nameCapacity : ℕ} (hcapacity : 13 ≤ nameCapacity) :
    findPath volume disk (some (entryToText entry nameCapacity ++ [0])) = some entry := by
  obtain ⟨text, shortName, htext, hmatches⟩ := h.named
  obtain ⟨stem, extension, hparts, hwhole, hpadded⟩ := exists_parts htext
  obtain ⟨hcharacters, hlength, hname⟩ := shortNameFromText_text htext
  rw [← shortNameFromText_map] at hname
  rw [← List.length_map (f := upperCase)] at hlength
  rw [← List.forall_mem_map (P := fun character ↦ character ≠ 0 ∧ character ≠ 0x2F)] at hcharacters
  rw [entryToText_eq hparts (hpadded ▸ hmatches) hcapacity, ← hwhole]
  generalize (CString.text text).map upperCase = name at *
  have hzeros : CString.text (name ++ [0]) = name :=
    CString.text_append_replicate (fun character hmem ↦ (hcharacters character hmem).1) 1
  have hslashes : 0x2F ∉ name := fun hmem ↦ (hcharacters _ hmem).2 rfl
  have hsome : name ≠ [] := by
    rintro rfl
    cases hname
  rw [Fat.findPath, hzeros, if_neg, ← List.append_nil name,
    findPathFrom_append hslashes (by simpa using hlength), findPathFrom, List.nil_append,
    findComponent, if_neg hsome, hname]
  · dsimp only
    rw [findEntryInDirectory, h.scanRoot hroot hfile hmatches]
  · exact fun hhead ↦ hslashes (List.mem_of_mem_head? hhead)

end

/-- The call returned the contents of the entry. -/
def ReadInFull (volume : FatVolume) (disk : Disk) (entry : DirectoryEntry) (result : ReadResult) :
    Prop :=
  result.returned = true ∧ result.size = entry.readU32 28 ∧ ∀ index < entry.readU32 28,
    result.buffer.contents index = fileByte volume disk (entry.readU16 26) index

theorem Openable.readInFull_iff (h : Openable volume disk before entry capacity)
    (hvolume : volume.Sound) (hfile : isFile entry = true) {pointer : Pointer}
    (hpath : Fat.findPath volume disk pointer = some entry) (buffer : Logged ℕ UInt8) :
    ReadInFull volume disk entry (fatReadFile volume disk pointer buffer capacity) ↔
      entry.byteAt 11 &&& 0x07 = 0 := by
  have hreads := hvolume.readsExactly disk pointer buffer capacity
  have hplain := (attributes_of_isFile hfile).2.2.2
  constructor
  · rintro ⟨hreturned, -⟩
    obtain ⟨found, hfound, hreadable⟩ := hreads.returned.1 hreturned
    obtain rfl := Option.some.inj (hpath.symm.trans hfound)
    exact hplain.1 hreadable.plain
  · intro hattributes
    have hbounded := h.bounded (Nat.mul_pos hvolume.sectorsPerCluster_pos (by decide))
    have hreturned := hreads.returned.2
      ⟨entry, hpath, hplain.2 hattributes, h.fits, hbounded, h.chained⟩
    exact ⟨hreturned, hreads.file entry hpath hreturned⟩

/-- A listed name is that of a file of the root directory. If the name is one a short name can
come from and the first of its kind, the size is within the capacity and the chain is good, then
`fat_read_file` returns the contents under the listed name exactly when the file is not read-only,
hidden or a system file. -/
theorem listed_file_read_iff {σ : Type u} {read : ℕ → σ → Option Sector × σ} {startLba : ℕ}
    {state final : σ} {volume : FatVolume}
    (hmount : fatMount read startLba state = (.ok volume, final)) (disk : Disk)
    {index nameCapacity : ℕ} (hcapacity : 13 ≤ nameCapacity) {text : List UInt8}
    (hlisted : fatFileName volume disk true index nameCapacity = some text) :
    ∃ before entry after, rootDirectory volume disk = before ++ entry :: after ∧
      isFile entry = true ∧ before.countP isFile = index ∧
      ∀ buffer capacity, Openable volume disk before entry capacity →
        (ReadInFull volume disk entry (fatReadFile volume disk (some text) buffer capacity) ↔
          entry.byteAt 11 &&& 0x07 = 0) := by
  rw [fatFileName, if_neg (by simp; omega)] at hlisted
  split at hlisted
  next entry hfound =>
    obtain ⟨before, after, hroot, hfile, hindex⟩ := listSectors_found hfound
    rw [Nat.zero_add] at hindex
    refine ⟨before, entry, after, hroot, hfile, hindex, fun buffer capacity hopenable ↦ ?_⟩
    obtain rfl := Option.some.inj hlisted
    exact hopenable.readInFull_iff (sound_of_fatMount hmount) hfile
      (hopenable.findPath hroot hfile hcapacity) buffer
  next => cases hlisted

/-- A file of three bytes in the first cluster of the volume can be opened. -/
theorem openable_small (hname : nameMatches entry (padded [0x41] []) = true)
    (hsize : entry.readU32 28 = 3) (hfirst : entry.readU16 26 = 2)
    (hsector : (disk 18).isSome = true) : Openable smallVolume disk [] entry 4 := by
  have hone : clustersOf smallVolume 3 = 1 := by decide +kernel
  refine ⟨⟨[0x41], _, by decide +kernel, hname⟩, by simp, by omega, .inr ⟨by omega, ?_⟩, ?_⟩ <;>
    rw [hsize, hfirst]
  · refine ⟨fun index hindex ↦ ?_, fun index hindex ↦ ?_, fun index hindex ↦ by omega⟩
    · obtain rfl : index = 0 := by omega
      exact (by decide : 2 ≤ 2 ∧ 2 < smallVolume.clusterCount + 2)
    · obtain rfl : index = 0 := by rw [fatSectorSize] at hindex; omega
      exact hsector
  · intro index hindex other hother _
    rw [hone, Set.mem_Iio] at hindex hother
    omega

/-- The disk with other attributes of the file. -/
def markedDisk (attributes : UInt8) : Disk := fun lba ↦
  if lba = 17 then (smallDisk 17).map (Buffer.setByte · 11 attributes) else smallDisk lba

def markedEntry (attributes : UInt8) : DirectoryEntry :=
  (Buffer.zeroed 32).setBytes 0 ([0x41] ++ List.replicate 10 0x20 ++ [attributes] ++
    List.replicate 14 0 ++ [2, 0, 3, 0, 0, 0])

/-- A file that is only marked for archiving is listed and read under its name. -/
theorem listed_file_read_archive :
    fatFileName smallVolume (markedDisk 0x20) true 0 13 = some [0x41, 0] ∧
      ReadInFull smallVolume (markedDisk 0x20) (markedEntry 0x20)
        (fatReadFile smallVolume (markedDisk 0x20) (some [0x41, 0]) ⟨fun _ ↦ 0, []⟩ 4) := by
  have hlisted : fatFileName smallVolume (markedDisk 0x20) true 0 13 = some [0x41, 0] := by
    decide +kernel
  have hroot : rootDirectory smallVolume (markedDisk 0x20) = [markedEntry 0x20] := by
    decide +kernel
  obtain ⟨before, entry, after, hsplit, -, -, hread⟩ :=
    listed_file_read_iff fatMount_smallDisk (markedDisk 0x20) (le_refl 13) hlisted
  obtain ⟨rfl, hentry⟩ | ⟨-, hentry⟩ := List.append_eq_singleton_iff.mp (hsplit.symm.trans hroot)
  · obtain ⟨rfl, -⟩ := List.cons.inj hentry
    exact ⟨hlisted, (hread _ 4 (openable_small (by decide +kernel) (by decide +kernel)
      (by decide +kernel) (by decide +kernel))).2 (by decide +kernel)⟩
  · cases hentry

/-- A read-only file is listed but not read. -/
theorem read_only_file_not_read :
    fatMount (fun lba (_ : Unit) ↦ (markedDisk 0x01 lba, ())) 0 () = (.ok smallVolume, ()) ∧
      fatFileName smallVolume (markedDisk 0x01) true 0 13 = some [0x41, 0] ∧
      rootDirectory smallVolume (markedDisk 0x01) = [markedEntry 0x01] ∧
      Openable smallVolume (markedDisk 0x01) [] (markedEntry 0x01) 4 ∧
      (fatReadFile smallVolume (markedDisk 0x01) (some [0x41, 0]) ⟨fun _ ↦ 0, []⟩ 4).returned =
        false :=
  ⟨by decide +kernel, by decide +kernel, by decide +kernel,
    openable_small (by decide +kernel) (by decide +kernel) (by decide +kernel) (by decide +kernel),
    by decide +kernel⟩

end Reading

end EfesOS.Fs.Fat
