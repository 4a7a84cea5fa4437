import RegisterMachine.Proofs.Except
import RegisterMachine.Proofs.Tool.Path

/-! Files that are written.

A file holds what was written to it (`read_write`), and a file of another name holds what it held
before (`read_write_of_ne`). Both go by the way there: whatever is a folder on it stays one, since
nothing is written over a folder (`walk_put`), and the last name on it is a file's name
(`named_of_walk`). -/
namespace RegisterMachine.Folder

variable {f : Folder} {place next : Place} {names : List String} {bytes : List UInt8}

/-! ### One file replaced -/

theorem lookup_cons_eq (name other : List String) (old : List UInt8)
    (rest : List (List String × List UInt8)) :
    ((name, old) :: rest).lookup other = if other = name then some old else rest.lookup other := by
  rw [List.lookup_cons]
  by_cases h : other = name
  · rw [if_pos h, beq_iff_eq.mpr h]
  · rw [if_neg h, beq_eq_false_iff_ne.mpr h]

theorem lookup_replace (files : List (List String × List UInt8)) (other : List String) :
    (files.map fun file => if file.1 = names then (names, bytes) else file).lookup other =
      if other = names then (files.lookup names).map fun _ => bytes else files.lookup other := by
  induction files with
  | nil => simp
  | cons file rest ih =>
    obtain ⟨name, old⟩ := file
    rw [List.map_cons, lookup_cons_eq, lookup_cons_eq]
    by_cases hname : name = names
    · rw [if_pos hname, lookup_cons_eq, ih, if_pos hname.symm, hname]
      by_cases hother : other = names <;> simp [hother]
    · rw [if_neg hname, lookup_cons_eq, ih, if_neg (Ne.symm hname)]
      by_cases hother : other = names
      · rw [if_pos hother, if_pos hother, if_neg (hother ▸ Ne.symm hname)]
      · rw [if_neg hother, if_neg hother]

theorem lookup_put (f : Folder) (names other : List String) (bytes : List UInt8) :
    (f.put names bytes).files.lookup other =
      if other = names then some bytes else f.files.lookup other := by
  unfold put
  split
  · next hsome =>
    obtain ⟨old, hold⟩ := Option.isSome_iff_exists.mp hsome
    rw [lookup_replace, hold]
    rfl
  · next hnone =>
    have hnone : f.files.lookup names = none := Option.not_isSome_iff_eq_none.mp hnone
    rw [List.lookup_append, lookup_cons_eq]
    by_cases hother : other = names
    · simp [hother, hnone]
    · simp [hother]

theorem mem_put {file : List String × List UInt8} (h : file ∈ f.files) :
    ∃ other ∈ (f.put names bytes).files, other.1 = file.1 := by
  unfold put
  split
  · refine ⟨_, List.mem_map_of_mem h, ?_⟩
    split
    · next heq => exact heq.symm
    · rfl
  · exact ⟨file, List.mem_append_left _ h, rfl⟩

theorem entry?_put_self (f : Folder) (names : List String) (bytes : List UInt8) :
    Folder.entry? (f.put names bytes) (.below names) = some (.file bytes) := by
  have hlookup : (f.put names bytes).files.lookup names = some bytes := by
    rw [lookup_put, if_pos rfl]
  unfold entry?
  dsimp only
  rw [hlookup]

/-- What is at another place stays. -/
theorem entry?_put_of_ne {entry : FolderEntry} (hne : place ≠ .below names)
    (h : f.entry? place = some entry) :
    Folder.entry? (f.put names bytes) place = some entry := by
  cases place with
  | above | root | devices | sink => exact h
  | beside => cases h
  | below other =>
    have hother : other ≠ names := fun heq => hne (congrArg _ heq)
    unfold entry? at h ⊢
    dsimp only at h ⊢
    rw [lookup_put, if_neg hother]
    cases hlookup : f.files.lookup other with
    | some old =>
      rw [hlookup] at h
      exact h
    | none =>
      rw [hlookup] at h
      dsimp only at h ⊢
      split at h
      · next hfolder =>
        refine (if_pos ?_).trans h
        refine hfolder.imp_right fun hany => ?_
        obtain ⟨file, hfile, hprefix⟩ := List.any_eq_true.mp hany
        obtain ⟨file', hfile', hname⟩ := mem_put hfile
        exact List.any_eq_true.mpr ⟨file', hfile', hname ▸ hprefix⟩
      · cases h

/-! ### The way to a place -/

theorem enter_ok {name : String} (h : f.enter place name = .ok next) :
    f.entry? place = some .directory ∧ next = place.step name := by
  unfold enter at h
  split at h
  · cases h
  · cases h
  · next hentry =>
    split at h
    · cases h
    · obtain rfl := Except.ok.inj h
      exact ⟨hentry, rfl⟩

/-- A file that is written is on the way to no place. -/
theorem walk_put {start : Place} {parts : List String}
    (hfile : f.entry? (.below names) ≠ some .directory)
    (h : parts.foldlM f.enter start = .ok place) (bytes : List UInt8) :
    parts.foldlM (f.put names bytes).enter start = .ok place := by
  induction parts generalizing start with
  | nil => exact h
  | cons name rest ih =>
    rw [List.foldlM_cons] at h ⊢
    obtain ⟨next, henter, hrest⟩ := bind_ok_iff.mp h
    obtain ⟨hdirectory, -⟩ := enter_ok henter
    have hne : start ≠ .below names := fun heq => hfile (heq ▸ hdirectory)
    have hsame : (f.put names bytes).enter start name = .ok next := by
      rw [← henter, enter, enter, hdirectory, entry?_put_of_ne hne hdirectory]
    exact bind_ok_iff.mpr ⟨next, hsame, ih hrest⟩

/-- The folders that a place lies in are there. -/
def Reaches (f : Folder) (place : Place) : Prop :=
  ∀ names, place = .below names → ∀ front, front <+: names → front ≠ names →
    f.entry? (.below front) = some .directory

theorem reaches_start (f : Folder) (path : List Char) : f.Reaches (Place.start path) := by
  intro names hnames front hfront hne
  unfold Place.start at hnames
  split at hnames
  · cases hnames
  · obtain rfl := Place.below.inj hnames
    exact absurd (List.prefix_nil.mp hfront) hne

theorem step_dots (h : f.Reaches place) (hdirectory : f.entry? place = some .directory) :
    f.Reaches (place.step "..") ∧ f.entry? (place.step "..") = some .directory := by
  have hnot : ¬(".." = "" ∨ ".." = ".") := by decide
  unfold Place.step
  rw [if_neg hnot, if_pos rfl]
  cases place with
  | above | root | devices => exact ⟨fun _ heq => (nomatch heq), rfl⟩
  | sink | beside => cases hdirectory
  | below names =>
    cases names with
    | nil => exact ⟨fun _ heq => (nomatch heq), rfl⟩
    | cons name rest =>
      show f.Reaches (.below (name :: rest).dropLast) ∧
        f.entry? (.below (name :: rest).dropLast) = some .directory
      -- `..` leads back to a folder that was passed on the way
      have hprefix := List.dropLast_prefix (name :: rest)
      have hshorter (front : List String) (hfront : front <+: (name :: rest).dropLast) :
          f.entry? (.below front) = some .directory := by
        refine h _ rfl front (hfront.trans hprefix) fun hwhole => ?_
        have hlength := hfront.length_le
        rw [hwhole, List.length_dropLast, List.length_cons] at hlength
        omega
      refine ⟨?_, hshorter _ (List.prefix_refl _)⟩
      rintro _ heq front hfront -
      obtain rfl := Place.below.inj heq
      exact hshorter front hfront

/-- A name leads to a folder, or it is the name of a file. -/
theorem step_cases {name : String} (h : f.Reaches place) (henter : f.enter place name = .ok next) :
    f.Reaches next ∧ (Path.Proper name.toList ∧
      ((∃ front, next = .below (front ++ [name])) ∨ next = .sink ∧ name = "null" ∨
        next = .beside) ∨ f.entry? next = some .directory) := by
  obtain ⟨hdirectory, rfl⟩ := enter_ok henter
  by_cases hidle : name = "" ∨ name = "."
  · have hstays : place.step name = place := by
      unfold Place.step
      rw [if_pos hidle]
    rw [hstays]
    exact ⟨h, .inr hdirectory⟩
  by_cases hdots : name = ".."
  · obtain ⟨hreaches, hup⟩ := step_dots h hdirectory
    rw [hdots]
    exact ⟨hreaches, .inr hup⟩
  have hproper : Path.Proper name.toList := by
    refine ⟨fun heq => hidle (.inl ?_), fun heq => hidle (.inr ?_), fun heq => hdots ?_⟩ <;>
      exact String.toList_inj.mp heq
  unfold Place.step
  rw [if_neg hidle, if_neg hdots]
  cases place with
  | above | sink | beside =>
    exact ⟨fun _ heq => (nomatch heq), .inl ⟨hproper, .inr (.inr rfl)⟩⟩
  | root =>
    dsimp only
    split
    · exact ⟨fun _ heq => (nomatch heq), .inr rfl⟩
    · exact ⟨fun _ heq => (nomatch heq), .inl ⟨hproper, .inr (.inr rfl)⟩⟩
  | devices =>
    dsimp only
    split
    · next hnull => exact ⟨fun _ heq => (nomatch heq), .inl ⟨hproper, .inr (.inl ⟨rfl, hnull⟩)⟩⟩
    · exact ⟨fun _ heq => (nomatch heq), .inl ⟨hproper, .inr (.inr rfl)⟩⟩
  | below names =>
    refine ⟨?_, .inl ⟨hproper, .inl ⟨names, rfl⟩⟩⟩
    rintro _ heq front hfront hne
    obtain rfl := Place.below.inj heq
    by_cases hwhole : front = names
    · exact hwhole ▸ hdirectory
    · refine h _ rfl front ?_ hwhole
      exact (List.prefix_concat_iff.mp hfront).resolve_left hne

theorem reaches_walk {start : Place} {parts : List String} (h : f.Reaches start)
    (hwalk : parts.foldlM f.enter start = .ok place) : f.Reaches place := by
  induction parts generalizing start with
  | nil =>
    obtain rfl := Except.ok.inj hwalk
    exact h
  | cons name rest ih =>
    rw [List.foldlM_cons] at hwalk
    obtain ⟨next, henter, hrest⟩ := bind_ok_iff.mp hwalk
    exact ih (step_cases h henter).1 hrest

/-- A path to a place that is no folder ends in the name of a file. -/
theorem named_of_walk {path : String}
    (h : f.walk (Place.start path.toList) path.toList = .ok place)
    (hfile : f.entry? place ≠ some .directory) : Path.name? path = some (Path.lastName path) ∧
      ((∃ front, place = .below (front ++ [String.ofList (Path.lastName path).reverse])) ∨
        place = .sink ∧ Path.lastName path = "null".toList.reverse ∨ place = .beside) := by
  obtain ⟨front, hnames⟩ := Path.names_eq path
  rw [walk, hnames, List.foldlM_append] at h
  obtain ⟨folder, hfolder, hlast⟩ := bind_ok_iff.mp h
  obtain ⟨next, henter, hnext⟩ := bind_ok_iff.mp hlast
  obtain rfl := Except.ok.inj hnext
  have hreaches := reaches_walk (f.reaches_start path.toList) hfolder
  obtain ⟨hproper, hplace⟩ := (step_cases hreaches henter).2.resolve_right hfile
  rw [String.toList_ofList] at hproper
  refine ⟨Path.name?_eq (Path.proper_reverse.mp hproper), hplace.imp_right fun hother => ?_⟩
  refine hother.imp_left fun ⟨hsink, hnull⟩ => ⟨hsink, ?_⟩
  rw [← hnull, String.toList_ofList, List.reverse_reverse]

/-- The name of such a path is that of the place. -/
theorem name?_of_below {path : String}
    (h : f.walk (Place.start path.toList) path.toList = .ok (.below names))
    (hfile : f.entry? (.below names) ≠ some .directory) :
    Path.name? path = names.getLast?.map fun name => name.toList.reverse := by
  obtain ⟨hname, ⟨front, hplace⟩ | ⟨hplace, -⟩ | hplace⟩ := named_of_walk h hfile
  · obtain rfl := Place.below.inj hplace
    rw [hname, List.getLast?_concat, Option.map_some, String.toList_ofList, List.reverse_reverse]
  · cases hplace
  · cases hplace

/-! ### Reading and writing -/

theorem find_ok {path : String} {entry : FolderEntry} (h : f.find path = .ok entry) :
    checkPath path = .ok () ∧ ∃ place, f.walk (Place.start path.toList) path.toList = .ok place ∧
      f.entry? place = some entry := by
  obtain ⟨⟨⟩, hcheck, h⟩ := bind_ok_iff.mp h
  obtain ⟨place, hwalk, h⟩ := bind_ok_iff.mp h
  refine ⟨hcheck, place, hwalk, ?_⟩
  cases hentry : f.entry? place with
  | none => rw [hentry] at h; cases h
  | some found =>
    rw [hentry] at h
    rw [Except.ok.inj h]

theorem find_of_walk {path : String} {entry : FolderEntry} (hcheck : checkPath path = .ok ())
    (hwalk : f.walk (Place.start path.toList) path.toList = .ok place)
    (hentry : f.entry? place = some entry) : f.find path = .ok entry := by
  refine bind_ok_iff.mpr ⟨(), hcheck, bind_ok_iff.mpr ⟨place, hwalk, ?_⟩⟩
  rw [hentry]

theorem read_ok_iff {path : String} :
    f.read path = .ok bytes ↔ f.find path = .ok (.file bytes) := by
  refine bind_ok_iff.trans ⟨?_, fun h => ⟨_, h, rfl⟩⟩
  rintro ⟨entry, hfind, h⟩
  cases entry with
  | directory => cases h
  | file found =>
    rw [hfind, Except.ok.inj h]

theorem name?_of_read {path : String} (h : f.read path = .ok bytes) :
    ∃ name, Path.name? path = some name := by
  obtain ⟨-, place, hwalk, hentry⟩ := find_ok (read_ok_iff.mp h)
  exact ⟨_, (named_of_walk hwalk (by simp [hentry])).1⟩

/-- What is written goes to the null device or to a place that was no folder. -/
theorem write_ok {path : String} {f' : Folder} (h : f.write path bytes = .ok f') :
    checkPath path = .ok () ∧ ∃ place, f.walk (Place.start path.toList) path.toList = .ok place ∧
      f.entry? place ≠ some .directory ∧
      ((∃ names, place = .below names ∧ f' = f.put names bytes) ∨ place = .sink ∧ f' = f) := by
  obtain ⟨⟨⟩, hcheck, h⟩ := bind_ok_iff.mp h
  refine ⟨hcheck, ?_⟩
  dsimp only at h
  split at h
  · obtain ⟨_, -, h⟩ := bind_ok_iff.mp h
    cases h
  · obtain ⟨place, hwalk, h⟩ := bind_ok_iff.mp h
    refine ⟨place, hwalk, ?_⟩
    split at h
    · cases h
    · next names hnot =>
      refine ⟨hnot, .inl ⟨names, rfl, (Except.ok.inj h).symm⟩⟩
    · next hnot =>
      exact ⟨hnot, .inr ⟨rfl, (Except.ok.inj h).symm⟩⟩
    · cases h

/-- **A file holds what was written to it**, the null device apart. -/
theorem read_write {path : String} {f' : Folder} (h : f.write path bytes = .ok f')
    (hname : Path.name? path ≠ some "null".toList.reverse) : f'.read path = .ok bytes := by
  obtain ⟨hcheck, place, hwalk, hfile, hput⟩ := write_ok h
  obtain ⟨hlast, hplace⟩ := named_of_walk hwalk hfile
  rcases hput with ⟨names, rfl, rfl⟩ | ⟨rfl, rfl⟩
  · have hthere := walk_put hfile hwalk bytes
    exact read_ok_iff.mpr (find_of_walk hcheck hthere (f.entry?_put_self names bytes))
  · rcases hplace with ⟨front, heq⟩ | ⟨-, hnull⟩ | heq
    · cases heq
    · exact absurd (hnull ▸ hlast) hname
    · cases heq

/-- **A file of another name holds what it held.** -/
theorem read_write_of_ne {path other : String} {f' : Folder} {old : List UInt8}
    (h : f.write path bytes = .ok f') (hread : f.read other = .ok old)
    (hne : Path.name? other ≠ Path.name? path) : f'.read other = .ok old := by
  obtain ⟨-, place, hwalk, hfile, hput⟩ := write_ok h
  rcases hput with ⟨names, rfl, rfl⟩ | ⟨-, rfl⟩
  · obtain ⟨hcheck, source, hsource, hentry⟩ := find_ok (read_ok_iff.mp hread)
    -- the names of the two paths would be the same if their places were
    have hplace : source ≠ .below names := by
      rintro rfl
      refine hne ?_
      rw [name?_of_below hsource (by simp [hentry]), name?_of_below hwalk hfile]
    exact read_ok_iff.mpr
      (find_of_walk hcheck (walk_put hfile hsource bytes) (entry?_put_of_ne hplace hentry))
  · exact hread

end RegisterMachine.Folder
