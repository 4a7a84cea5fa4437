import RegisterMachine.Tool.Folder
import RegisterMachine.Tool.Path

/-! The last name on a path.

A folder follows every name between the slashes of a path, and a path as text leaves out what
means nothing at its end. Of a path that leads to a file the two have the same last name
(`name?_eq`, `names_eq`), and a path with another extension has that extension
(`extension?_withExtension`). -/
namespace RegisterMachine.Path

/-- What stands behind the last slash of a path, given from its end. -/
def lastName (path : String) : List Char := path.toList.reverse.takeWhile (· != '/')

/-- A name that can be a file's. It reads the same from its end. -/
def Proper (name : List Char) : Prop := name ≠ [] ∧ name ≠ ['.'] ∧ name ≠ ['.', '.']

variable {path : String}

theorem proper_reverse {name : List Char} : Proper name.reverse ↔ Proper name := by
  unfold Proper
  simp only [ne_eq, List.reverse_eq_iff, List.reverse_nil, List.reverse_singleton]
  rfl

/-! ### Paths and their names -/

theorem reversed_eq (h : Proper (lastName path)) : reversed path = path.toList.reverse := by
  obtain ⟨hsome, hdot, -⟩ := h
  unfold lastName at hsome hdot
  unfold reversed
  generalize path.toList.reverse = chars at hsome hdot
  unfold dropIdle
  split
  · rfl
  · exact absurd rfl hsome
  · exact absurd rfl hdot
  · rfl

theorem name?_eq (h : Proper (lastName path)) : name? path = some (lastName path) := by
  obtain ⟨hsome, hdot, hdots⟩ := h
  rw [name?, reversed_eq ⟨hsome, hdot, hdots⟩]
  unfold lastName at hsome hdot hdots ⊢
  split <;> first | contradiction | rfl

theorem names_eq (path : String) :
    ∃ front, Folder.names path.toList = front ++ [String.ofList (lastName path).reverse] := by
  have hparts : path.toList = (path.toList.reverse.dropWhile (· != '/')).reverse ++
      (lastName path).reverse := by
    rw [← List.reverse_append, lastName, List.takeWhile_append_dropWhile, List.reverse_reverse]
  have hplain : ∀ c ∈ (lastName path).reverse, (c == '/') = false := fun c hc => by
    simpa using List.all_eq_true.mp List.all_takeWhile c (List.mem_reverse.mp hc)
  have hlast : (lastName path).reverse.splitOnP (· == '/') = [(lastName path).reverse] :=
    List.splitOnP_eq_singleton hplain
  unfold Folder.names List.splitOn
  rw [hparts]
  cases hfront : path.toList.reverse.dropWhile (· != '/') with
  | nil => exact ⟨[], by rw [List.reverse_nil, List.nil_append, hlast]; rfl⟩
  | cons c front =>
    have hslash : c = '/' := by
      have hnot := List.head?_dropWhile_not (· != '/') path.toList.reverse
      rw [hfront] at hnot
      simpa using hnot
    have hsplit := List.splitOnP_append_cons (p := (· == '/')) front.reverse
      (lastName path).reverse (beq_iff_eq.mpr hslash)
    refine ⟨(front.reverse.splitOnP (· == '/')).map String.ofList, ?_⟩
    rw [List.reverse_cons, List.append_assoc, List.singleton_append, hsplit, hlast,
      List.map_append]
    rfl

/-! ### Extensions -/

theorem splitName_stem {name : List Char} (h : name ≠ []) :
    ∃ stem, (splitName name).1 = String.ofList stem.reverse ∧ stem ≠ [] ∧
      ∀ c ∈ stem, c ∈ name := by
  unfold splitName
  split
  · exact ⟨name, rfl, h, fun _ hc => hc⟩
  · exact ⟨name, rfl, h, fun _ hc => hc⟩
  · next c stem hnot hdrop =>
    have hc : c = '.' := by
      have hhead := List.head?_dropWhile_not (· != '.') name
      rw [hdrop] at hhead
      simpa using hhead
    refine ⟨stem, rfl, hnot hc, fun d hd => ?_⟩
    exact (List.dropWhile_sublist _).subset (hdrop ▸ List.mem_cons_of_mem c hd)

theorem takeWhile_reverse_append {name : List Char} (h : '/' ∉ name) (rest : List Char) :
    (name.reverse ++ rest).takeWhile (· != '/') = name.reverse ++ rest.takeWhile (· != '/') :=
  List.takeWhile_append_of_pos fun c hc => by
    have hne : c ≠ '/' := fun heq => h (heq ▸ List.mem_reverse.mp hc)
    simpa using hne

/-- The last name on the path of a name in a folder. -/
theorem lastName_inside (folder : String) {name : String} (h : '/' ∉ name.toList) :
    lastName (inside folder name) = name.toList.reverse := by
  unfold inside lastName
  split
  · simpa using takeWhile_reverse_append h []
  · split
    · next hend =>
      obtain ⟨front, hfront⟩ := List.getLast?_eq_some_iff.mp hend
      rw [String.toList_append, List.reverse_append, takeWhile_reverse_append h, hfront]
      simp
    · rw [String.toList_append, List.reverse_append, takeWhile_reverse_append h,
        String.toList_append, List.reverse_append]
      simp

theorem of_name? {name : List Char} (h : name? path = some name) :
    name ≠ [] ∧ '/' ∉ name := by
  unfold name? at h
  have hplain : '/' ∉ (reversed path).takeWhile (· != '/') := fun hslash => by
    have hnot := List.all_eq_true.mp List.all_takeWhile _ hslash
    simp at hnot
  split at h
  · cases h
  · cases h
  · cases h
  · next hsome _ _ =>
    obtain rfl := Option.some.inj h
    exact ⟨hsome, hplain⟩

theorem splitName_append {extension stem : List Char} (hplain : '.' ∉ extension)
    (hstem : stem ≠ []) : splitName (extension.reverse ++ '.' :: stem) =
      (String.ofList stem.reverse, some (String.ofList extension)) := by
  have hall : ∀ c ∈ extension.reverse, (c != '.') = true := fun c hc => by
    have hne : c ≠ '.' := fun heq => hplain (heq ▸ List.mem_reverse.mp hc)
    simpa using hne
  have hdrop : (extension.reverse ++ '.' :: stem).dropWhile (· != '.') = '.' :: stem := by
    rw [List.dropWhile_append_of_pos hall]
    rfl
  have htake : (extension.reverse ++ '.' :: stem).takeWhile (· != '.') = extension.reverse := by
    rw [List.takeWhile_append_of_pos hall]
    exact List.append_nil _
  unfold splitName
  rw [hdrop, htake, List.reverse_reverse]
  cases stem with
  | nil => exact absurd rfl hstem
  | cons c stem => rfl

/-- A path that gets another extension has it, if there is a name to get it. -/
theorem extension?_withExtension {name : List Char} {extension : String}
    (hname : name? path = some name) (hsome : extension.toList ≠ [])
    (hplain : '.' ∉ extension.toList ∧ '/' ∉ extension.toList) :
    extension? (withExtension path extension) = some extension := by
  obtain ⟨hne, hslash⟩ := of_name? hname
  obtain ⟨part, hpart, hpartne, hsub⟩ := splitName_stem hne
  have hstem : stem path = String.ofList part.reverse := by
    rw [stem, hname]
    exact hpart
  have hfile : (stem path ++ "." ++ extension).toList =
      part.reverse ++ '.' :: extension.toList := by
    rw [hstem, String.toList_append, String.toList_append, String.toList_ofList]
    simp
  have hlast : lastName (withExtension path extension) =
      extension.toList.reverse ++ '.' :: part := by
    rw [withExtension, lastName_inside, hfile]
    · simp
    · rw [hfile]
      intro hmem
      rcases List.mem_append.mp hmem with hfront | hback
      · exact hslash (hsub _ (List.mem_reverse.mp hfront))
      · rcases List.mem_cons.mp hback with heq | hback
        · exact absurd heq (by decide)
        · exact hplain.2 hback
  have hlong : 3 ≤ (extension.toList.reverse ++ '.' :: part).length := by
    have hextension := List.length_pos_iff.mpr hsome
    have hrest := List.length_pos_iff.mpr hpartne
    rw [List.length_append, List.length_reverse, List.length_cons]
    omega
  have hproper : Proper (lastName (withExtension path extension)) := by
    rw [hlast]
    refine ⟨?_, ?_, ?_⟩ <;> intro heq <;> rw [heq] at hlong <;> simp at hlong
  rw [extension?, name?_eq hproper, hlast, Option.bind_some, splitName_append hplain.1 hpartne,
    String.ofList_toList]

end RegisterMachine.Path
