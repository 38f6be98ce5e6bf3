import Mathlib.Data.List.Basic
import ClassImage.CommandLine.FileTree

/-!
# Where paths lead and what changes there

A path leads through a list of places to the one it stands for, whatever is found there: `trail` and
`resolve`. Going on from a directory first leads to that directory (`trail_joinPath`), and the
directory of a path is on its way (`trail_parentPath_subset`). Names that lead up only after they
led down stay below where they started (`prefix_of_mem_trailFrom`).

Making directories changes nothing but places on the way, and only where nothing stood
(`makesOnly_makeDirectories`); a file is written at the place that its path stands for
(`node?_writeFile`). Neither does away with a directory.
-/

namespace ClassImage.CommandLine

/-! ### The names in a text -/

/-- The names that a text holds between its slashes. -/
def namesOf (text : List Char) : List String :=
  (splitOnto [] [] text).filter fun piece => piece ≠ "" ∧ piece ≠ "."

theorem names_ofString (text : String) : (Path.ofString text).names = namesOf text.toList := rfl

theorem splitOnto_slash (piece : List Char) (done : List String) (rest : List Char) :
    splitOnto piece done ('/' :: rest) = splitOnto [] (String.ofList piece.reverse :: done) rest :=
  rfl

theorem splitOnto_cons {c : Char} (hc : c ≠ '/') (piece : List Char) (done : List String)
    (rest : List Char) :
    splitOnto piece done (c :: rest) = splitOnto (c :: piece) done rest := by
  rw [splitOnto]
  exact hc

theorem splitOnto_done (piece : List Char) (done : List String) (text : List Char) :
    splitOnto piece done text = done.reverse ++ splitOnto piece [] text := by
  induction text generalizing piece done with
  | nil => simp [splitOnto]
  | cons c rest ih =>
    by_cases hc : c = '/'
    · subst hc
      rw [splitOnto_slash, splitOnto_slash, ih, ih [] [_]]
      simp
    · rw [splitOnto_cons hc, splitOnto_cons hc, ih]

theorem splitOnto_append (piece : List Char) (before behind : List Char) :
    splitOnto piece [] (before ++ '/' :: behind) = splitOnto piece [] before ++
      splitOnto [] [] behind := by
  induction before generalizing piece with
  | nil => rw [List.nil_append, splitOnto_slash, splitOnto_done, splitOnto]
  | cons c before ih =>
    by_cases hc : c = '/'
    · subst hc
      rw [List.cons_append, splitOnto_slash, splitOnto_slash, splitOnto_done, ih,
        splitOnto_done [] [_] before, List.append_assoc]
    · rw [List.cons_append, splitOnto_cons hc, splitOnto_cons hc, ih]

/-- A slash divides the names before it from those behind it. -/
theorem namesOf_append (before behind : List Char) :
    namesOf (before ++ '/' :: behind) = namesOf before ++ namesOf behind := by
  rw [namesOf, splitOnto_append, List.filter_append]
  rfl

@[simp] theorem namesOf_nil : namesOf [] = [] := by decide

theorem splitOnto_of_not_mem {text : List Char} (htext : '/' ∉ text) (piece : List Char) :
    splitOnto piece [] text = [String.ofList (piece.reverse ++ text)] := by
  induction text generalizing piece with
  | nil =>
    rw [splitOnto, List.append_nil]
    rfl
  | cons c rest ih =>
    rw [List.mem_cons, not_or] at htext
    rw [splitOnto_cons (Ne.symm htext.1), ih htext.2, List.reverse_cons, List.append_assoc,
      List.singleton_append]

/-- The last piece of a text ends as the text does. -/
theorem exists_splitOnto_append {ending : List Char} (hending : '/' ∉ ending)
    (piece text : List Char) :
    ∃ front last, splitOnto piece [] (text ++ ending) =
      front ++ [String.ofList (last ++ ending)] := by
  induction text generalizing piece with
  | nil => exact ⟨[], piece.reverse, splitOnto_of_not_mem hending piece⟩
  | cons c text ih =>
    by_cases hc : c = '/'
    · subst hc
      obtain ⟨front, last, heq⟩ := ih []
      refine ⟨String.ofList piece.reverse :: front, last, ?_⟩
      rw [List.cons_append, splitOnto_slash, splitOnto_done, heq]
      rfl
    · obtain ⟨front, last, heq⟩ := ih (c :: piece)
      exact ⟨front, last, by rw [List.cons_append, splitOnto_cons hc, heq]⟩

/-- A text that ends in something other than a slash or a dot holds a name. -/
theorem namesOf_append_ne_nil {ending : List Char} (hending : '/' ∉ ending)
    (hlength : 1 < ending.length) (text : List Char) : namesOf (text ++ ending) ≠ [] := by
  obtain ⟨front, last, heq⟩ := exists_splitOnto_append hending [] text
  have hlong : 1 < (String.ofList (last ++ ending)).toList.length := by
    rw [String.toList_ofList, List.length_append]
    omega
  have hmem : String.ofList (last ++ ending) ∈ namesOf (text ++ ending) := by
    refine List.mem_filter.mpr ⟨by rw [heq]; simp, decide_eq_true ⟨?_, ?_⟩⟩ <;>
      · intro h
        rw [h] at hlong
        exact absurd hlong (by decide)
  exact List.ne_nil_of_mem hmem

/-! ### Joined paths and directories of paths -/

theorem absolute_ofString (text : String) :
    (Path.ofString text).absolute = (text.toList.head? == some '/') := rfl

/-- A path that does not start at the root leads on from the directory. -/
theorem joinPath_of_relative {directory path : String}
    (hpath : (Path.ofString path).absolute = false) :
    joinPath directory path =
      if directory = "" ∨ directory.toList.getLast? = some '/' then directory ++ path
      else directory ++ "/" ++ path := by
  rw [absolute_ofString, beq_eq_false_iff_ne] at hpath
  rw [joinPath, if_neg hpath]

/-- It has the names of the directory and its own. -/
theorem names_joinPath {directory path : String} (hpath : (Path.ofString path).absolute = false) :
    (Path.ofString (joinPath directory path)).names =
      (Path.ofString directory).names ++ (Path.ofString path).names := by
  rw [joinPath_of_relative hpath, names_ofString, names_ofString, names_ofString]
  split
  · rename_i hends
    rcases hends with rfl | hslash
    · rw [String.empty_append, String.toList_empty, namesOf_nil, List.nil_append]
    · obtain ⟨front, hfront⟩ := List.getLast?_eq_some_iff.mp hslash
      rw [String.toList_append, hfront, List.append_assoc, List.singleton_append, namesOf_append,
        namesOf_append, namesOf_nil, List.append_nil]
  · rw [String.toList_append, String.toList_append, List.append_assoc]
    exact namesOf_append _ _

theorem absolute_joinPath {directory path : String}
    (hpath : (Path.ofString path).absolute = false) :
    (Path.ofString (joinPath directory path)).absolute = (Path.ofString directory).absolute := by
  by_cases hdirectory : directory = ""
  · rw [joinPath_of_relative hpath, if_pos (Or.inl hdirectory), hdirectory,
      String.empty_append, hpath]
    rfl
  · obtain ⟨c, rest, hchars⟩ :=
      List.exists_cons_of_ne_nil (mt String.toList_eq_nil_iff.mp hdirectory)
    rw [joinPath_of_relative hpath, absolute_ofString, absolute_ofString]
    split
    · rw [String.toList_append, hchars]
      rfl
    · rw [String.toList_append, String.toList_append, hchars]
      rfl

theorem trimPathEnd_suffix (reversed : List Char) : trimPathEnd reversed <:+ reversed := by
  induction reversed with
  | nil => exact List.suffix_rfl
  | cons c rest ih =>
    rw [trimPathEnd]
    split
    · exact ih.trans (List.suffix_cons c rest)
    · exact List.suffix_rfl

/-- Slashes and single dots at the end of a path are no names. -/
theorem namesOf_trimPathEnd (reversed : List Char) :
    namesOf (trimPathEnd reversed).reverse = namesOf reversed.reverse := by
  induction reversed with
  | nil => rfl
  | cons c rest ih =>
    rw [trimPathEnd]
    split
    · rename_i htrim
      rw [ih, List.reverse_cons]
      rcases htrim with ⟨rfl, -⟩ | ⟨rfl, hslash⟩
      · rw [namesOf_append, namesOf_nil, List.append_nil]
      · obtain ⟨before, rfl⟩ := List.head?_eq_some_iff.mp hslash
        rw [List.reverse_cons, List.append_assoc, List.singleton_append,
          namesOf_append, namesOf_append]
        rfl
    · rfl

/-- The directory of a path goes through the same names and stops before the last. -/
theorem names_parentPath_prefix (path : String) :
    (Path.ofString (parentPath path)).names <+: (Path.ofString path).names := by
  rw [names_ofString, names_ofString, parentPath, String.toList_ofList, namesOf_trimPathEnd]
  have hwhole := namesOf_trimPathEnd path.toList.reverse
  rw [List.reverse_reverse] at hwhole
  rw [← hwhole]
  generalize trimPathEnd path.toList.reverse = reversed
  have hparts := List.takeWhile_append_dropWhile (p := (· ≠ '/')) (l := reversed)
  cases hrest : reversed.dropWhile (· ≠ '/') with
  | nil => exact List.nil_prefix
  | cons c rest =>
    have hslash : c = '/' := by
      have hhead := List.head?_dropWhile_not (· ≠ '/') reversed
      rw [hrest] at hhead
      simpa using hhead
    subst hslash
    rw [← hparts, hrest, List.reverse_append, List.reverse_cons, List.append_assoc,
      List.singleton_append, namesOf_append, namesOf_append, namesOf_nil, List.append_nil]
    exact List.prefix_append _ _

theorem absolute_parentPath {path : String} (h : (Path.ofString (parentPath path)).names ≠ []) :
    (Path.ofString (parentPath path)).absolute = (Path.ofString path).absolute := by
  have hfront : (parentPath path).toList <+: path.toList := by
    rw [parentPath, String.toList_ofList, ← List.reverse_suffix, List.reverse_reverse]
    exact (trimPathEnd_suffix _).trans ((List.dropWhile_suffix _).trans (trimPathEnd_suffix _))
  obtain ⟨rest, hrest⟩ := hfront
  rw [absolute_ofString, absolute_ofString, ← hrest]
  cases hchars : (parentPath path).toList with
  | nil =>
    rw [names_ofString, hchars] at h
    exact absurd namesOf_nil h
  | cons c chars => rfl

/-! ### Places on the way -/

/-- The place one name further, whether or not something stands there. -/
def follow (place : List String) (name : String) : List String :=
  if name = ".." then place.dropLast else place ++ [name]

/-- The places that names lead through. -/
def trailFrom : List String → List String → List (List String)
  | _, [] => []
  | place, name :: rest => follow place name :: trailFrom (follow place name) rest

/-- Where a path starts. -/
def startOf (working : List String) (path : String) : List String :=
  if (Path.ofString path).absolute then [] else working

/-- The places that a path leads through, the last of them included. -/
def trail (working : List String) (path : String) : List (List String) :=
  trailFrom (startOf working path) (Path.ofString path).names

/-- The place that a path stands for, with dots and slashes resolved. -/
def resolve (working : List String) (path : String) : List String :=
  (Path.ofString path).names.foldl follow (startOf working path)

theorem trailFrom_append (place : List String) (names rest : List String) :
    trailFrom place (names ++ rest) = trailFrom place names ++ trailFrom
      (names.foldl follow place) rest := by
  induction names generalizing place with
  | nil => rfl
  | cons name names ih =>
    rw [List.cons_append, trailFrom, trailFrom, ih, List.foldl_cons, List.cons_append]

theorem foldl_follow_mem_trailFrom {names : List String} (hnames : names ≠ [])
    (place : List String) :
    names.foldl follow place ∈ trailFrom place names := by
  induction names generalizing place with
  | nil => exact absurd rfl hnames
  | cons name rest ih =>
    rw [trailFrom, List.foldl_cons]
    by_cases hrest : rest = []
    · subst hrest
      exact List.mem_cons_self
    · exact List.mem_cons_of_mem _ (ih hrest _)

/-- **Going on from a directory** leads to the directory first, and from there on. -/
theorem trail_joinPath {working : List String} {directory path : String}
    (hpath : (Path.ofString path).absolute = false) :
    trail working (joinPath directory path) =
      trail working directory ++ trailFrom (resolve working directory)
        (Path.ofString path).names := by
  rw [trail, startOf, absolute_joinPath hpath, names_joinPath hpath, trailFrom_append]
  rfl

theorem resolve_joinPath {working : List String} {directory path : String}
    (hpath : (Path.ofString path).absolute = false) :
    resolve working (joinPath directory path) =
      (Path.ofString path).names.foldl follow (resolve working directory) := by
  rw [resolve, startOf, absolute_joinPath hpath, names_joinPath hpath, List.foldl_append]
  rfl

/-- The directory of a path is on its way. -/
theorem trail_parentPath_subset (working : List String) (path : String) :
    trail working (parentPath path) ⊆ trail working path := by
  by_cases hnames : (Path.ofString (parentPath path)).names = []
  · rw [trail, hnames]
    exact List.nil_subset _
  · obtain ⟨rest, hrest⟩ := names_parentPath_prefix path
    rw [trail, trail, startOf, startOf, absolute_parentPath hnames, ← hrest, trailFrom_append]
    exact List.subset_append_left _ _

/-- **Names without two dots** lead through the places above the one that they lead to. -/
theorem prefix_foldl_of_mem_trailFrom {names : List String} (hnames : ".." ∉ names)
    (place : List String) :
    place <+: names.foldl follow place ∧ ∀ q ∈ trailFrom place names,
      q <+: names.foldl follow place := by
  induction names generalizing place with
  | nil => exact ⟨List.prefix_rfl, fun q hq => absurd hq List.not_mem_nil⟩
  | cons name rest ih =>
    rw [List.mem_cons, not_or] at hnames
    obtain ⟨hstart, hrest⟩ := ih hnames.2 (follow place name)
    have hdown : follow place name = place ++ [name] := if_neg (Ne.symm hnames.1)
    refine ⟨(hdown ▸ List.prefix_append place [name]).trans hstart, fun q hq => ?_⟩
    rcases List.mem_cons.mp hq with rfl | hq
    · exact hstart
    · exact hrest q hq

/-- Whether names never lead up from where they start, if `depth` names led down before. -/
def staysBelow : Nat → List String → Bool
  | _, [] => true
  | depth, name :: rest =>
    if name = ".." then 0 < depth && staysBelow (depth - 1) rest else staysBelow (depth + 1) rest

/-- **Names that never lead up** stay below the place where they start. -/
theorem prefix_of_mem_trailFrom {base place names : List String} {depth : Nat}
    (hbase : base <+: place) (hdepth : place.length = base.length + depth)
    (hstays : staysBelow depth names = true) :
    ∀ q ∈ trailFrom place names, base <+: q := by
  induction names generalizing place depth with
  | nil => exact fun q hq => absurd hq List.not_mem_nil
  | cons name rest ih =>
    obtain ⟨below, rfl⟩ := hbase
    rw [List.length_append] at hdepth
    rw [staysBelow] at hstays
    have hnext : base <+: follow (base ++ below) name ∧ ∃ depth',
        (follow (base ++ below) name).length =
        base.length + depth' ∧ staysBelow depth' rest = true := by
      rw [follow]
      split at hstays
      · rename_i hup
        rw [Bool.and_eq_true, decide_eq_true_iff] at hstays
        have hne : below ≠ [] := List.ne_nil_of_length_pos (by omega)
        rw [if_pos hup, List.dropLast_append_of_ne_nil hne]
        refine ⟨List.prefix_append _ _, depth - 1, ?_, hstays.2⟩
        rw [List.length_append, List.length_dropLast]
        omega
      · rename_i hdown
        rw [if_neg hdown, List.append_assoc]
        refine ⟨List.prefix_append _ _, depth + 1, ?_, hstays⟩
        rw [List.length_append, List.length_append, List.length_singleton]
        omega
    obtain ⟨hfront, depth', hlength, hrest⟩ := hnext
    intro q hq
    rcases List.mem_cons.mp hq with rfl | hq
    · exact hfront
    · exact ih hfront hlength hrest q hq

namespace FileTree

variable {tree : FileTree} {place q : List String}

theorem eq_follow_of_step {name : String} {next : List String} (h : step place name = some next) :
    next = follow place name := by
  rw [step] at h
  rw [follow]
  split at h
  · rename_i hup
    rw [if_pos hup, Option.some.inj h]
  · rename_i hdown
    split at h
    · rw [if_neg hdown, Option.some.inj h]
    · exact absurd h (by simp)

theorem eq_foldl_of_walk {names : List String} {last : List String}
    (h : tree.walk place names = some last) :
    last = names.foldl follow place := by
  induction names generalizing place with
  | nil => exact (Option.some.inj h).symm
  | cons name rest ih =>
    rw [walk] at h
    split at h
    · split at h
      · rename_i hstep
        rw [List.foldl_cons, ← eq_follow_of_step hstep]
        exact ih h
      · exact absurd h (by simp)
    · exact absurd h (by simp)

/-- A path leads to the place that it stands for, if it leads anywhere. -/
theorem eq_resolve_of_place? {working : List String} {path : String}
    (h : tree.place? working path = some place) :
    place = resolve working path := by
  rw [place?] at h
  split at h
  · exact eq_foldl_of_walk h
  · exact absurd h (by simp)

/-! ### Changes -/

theorem lookup_filter_ne {nodes : List (List String × Node)} (h : q ≠ place) :
    (nodes.filter fun entry => entry.1 ≠ place).lookup q = nodes.lookup q := by
  induction nodes with
  | nil => rfl
  | cons entry nodes ih =>
    by_cases hentry : entry.1 = place
    · have hq : (q == entry.1) = false := by
        rw [hentry]
        simpa using h
      rw [List.filter_cons_of_neg (by simpa using hentry), ih, List.lookup_cons, hq]
    · rw [List.filter_cons_of_pos (by simpa using hentry), List.lookup_cons, List.lookup_cons, ih]

theorem node?_set_of_ne (node : Node) (h : q ≠ place) :
    (tree.set place node).node? q = tree.node? q := by
  have hq : (q == place) = false := by simpa using h
  rw [node?, node?, set, List.lookup_cons, hq, lookup_filter_ne h]

theorem node?_set_self (node : Node) (h : place ≠ []) :
    (tree.set place node).node? place = some node := by
  rw [node?, if_neg h, set, List.lookup_cons_self]

/-- Making a directory changes a place at which nothing stood, and there is a directory
afterwards. -/
theorem node?_makeDirectory {after : FileTree} (h : tree.makeDirectory place = some after) :
    (∀ q, after.node? q ≠ tree.node? q → q = place ∧ tree.node? q = none) ∧
      after.node? place = some .directory := by
  rw [makeDirectory] at h
  split at h
  · rename_i hnone
    obtain rfl := Option.some.inj h
    have hne : place ≠ [] := by
      rintro rfl
      exact absurd hnone (by simp [node?])
    refine ⟨fun q hq => ?_, node?_set_self _ hne⟩
    by_cases hqp : q = place
    · exact ⟨hqp, hqp ▸ hnone⟩
    · exact absurd (node?_set_of_ne _ hqp) hq
  · rename_i hdirectory
    obtain rfl := Option.some.inj h
    exact ⟨fun q hq => absurd rfl hq, hdirectory⟩
  · exact absurd h (by simp)

/-- What a change may do that makes directories at some places: where something stood, it still
stands. -/
def MakesOnly (places : List (List String)) (tree after : FileTree) : Prop :=
  ∀ q, after.node? q ≠ tree.node? q → q ∈ places ∧ tree.node? q = none

theorem MakesOnly.refl (places : List (List String)) (tree : FileTree) :
    MakesOnly places tree tree :=
  fun _ hq => absurd rfl hq

theorem MakesOnly.trans {places : List (List String)} {middle after : FileTree}
    (h : MakesOnly places tree middle) (h' : MakesOnly places middle after) :
    MakesOnly places tree after := by
  intro q hq
  by_cases hmiddle : middle.node? q = tree.node? q
  · rw [← hmiddle] at hq ⊢
    exact h' q hq
  · exact h q hmiddle

theorem MakesOnly.mono {places more : List (List String)} {after : FileTree}
    (h : MakesOnly places tree after) (hsub : places ⊆ more) : MakesOnly more tree after :=
  fun q hq => ⟨hsub (h q hq).1, (h q hq).2⟩

theorem MakesOnly.directory {places : List (List String)} {after : FileTree}
    (h : MakesOnly places tree after) (hq : tree.node? q = some .directory) :
    after.node? q = some .directory := by
  by_contra hchanged
  have hnone := (h q (by rwa [hq])).2
  rw [hq] at hnone
  exact absurd hnone (by simp)

/-- Making directories one after the other. -/
theorem makesOnly_makeDirectoriesFrom (tree : FileTree) (place names : List String) :
    MakesOnly (trailFrom place names) tree (tree.makeDirectoriesFrom place names).tree ∧
      ((tree.makeDirectoriesFrom place names).complete = true →
        ∀ q ∈ trailFrom place names, (tree.makeDirectoriesFrom place names).tree.node? q =
          some .directory) := by
  induction names generalizing tree place with
  | nil => exact ⟨.refl _ tree, fun _ q hq => absurd hq List.not_mem_nil⟩
  | cons name rest ih =>
    rw [makeDirectoriesFrom]
    split
    · split
      · exact ⟨.refl _ tree, fun h => absurd h (by simp)⟩
      · rename_i next hstep
        obtain rfl := eq_follow_of_step hstep
        split
        · exact ⟨.refl _ tree, fun h => absurd h (by simp)⟩
        · rename_i after hmake
          obtain ⟨honly, hdirectory⟩ := node?_makeDirectory hmake
          obtain ⟨hrest, hcomplete⟩ := ih after (follow place name)
          have hfirst : MakesOnly (trailFrom place (name :: rest)) tree after := by
            intro q hq
            obtain ⟨rfl, hnone⟩ := honly q hq
            exact ⟨List.mem_cons_self, hnone⟩
          refine ⟨hfirst.trans (hrest.mono (List.subset_cons_self _ _)), fun h q hq => ?_⟩
          rcases List.mem_cons.mp hq with rfl | hq
          · exact hrest.directory hdirectory
          · exact hcomplete h q hq
    · exact ⟨.refl _ tree, fun h => absurd h (by simp)⟩

theorem node?_resolve_of_lookup? {working : List String} {path : String}
    (h : tree.lookup? working path = some .directory) :
    tree.node? (resolve working path) = some .directory := by
  rw [lookup?] at h
  obtain ⟨place, hplace, h⟩ := Option.bind_eq_some_iff.mp h
  obtain ⟨node, hnode, h⟩ := Option.bind_eq_some_iff.mp h
  rw [← eq_resolve_of_place? hplace, hnode]
  cases node with
  | directory => rfl
  | file content =>
    dsimp only at h
    split at h <;> exact absurd h (by simp)

/-- **Making the directories of a path** changes only places on its way at which nothing stood. If
all could be made, there are directories all along the way. -/
theorem makesOnly_makeDirectories (tree : FileTree) (working : List String) (path : String) :
    MakesOnly (trail working path) tree (tree.makeDirectories working path).tree ∧
      ((tree.makeDirectories working path).complete = true →
        ∀ q ∈ trail working path, (tree.makeDirectories working path).tree.node? q =
          some .directory) := by
  rw [makeDirectories]
  split
  · exact ⟨.refl _ tree, fun h => absurd h (by simp)⟩
  · split
    · obtain ⟨honly, hcomplete⟩ :=
        makesOnly_makeDirectoriesFrom tree (startOf working path)
          (Path.ofString path).names.dropLast
      by_cases hnames : (Path.ofString path).names = []
      · have htrail : trail working path = [] := by rw [trail, hnames, trailFrom]
        rw [htrail]
        rw [hnames] at honly ⊢
        exact ⟨honly, fun _ q hq => absurd hq List.not_mem_nil⟩
      · -- The last directory is not made but looked up.
        have htrail : trail working path = trailFrom (startOf working path)
            (Path.ofString path).names.dropLast ++ [resolve working path] := by
          rw [trail, resolve, ← List.dropLast_append_getLast hnames, trailFrom_append,
            List.foldl_append, List.dropLast_concat]
          rfl
        rw [htrail]
        refine ⟨honly.mono (List.subset_append_left _ _), fun h q hq => ?_⟩
        obtain ⟨hmade, hlookup⟩ := Bool.and_eq_true_iff.mp h
        rcases List.mem_append.mp hq with hq | hq
        · exact hcomplete hmade q hq
        · obtain rfl := List.mem_singleton.mp hq
          exact node?_resolve_of_lookup? (eq_of_beq hlookup)
    · exact makesOnly_makeDirectoriesFrom tree _ _

/-- Writing a file changes at most the place of the file, where no directory may stand. -/
theorem node?_writeFile (tree : FileTree) (working : List String) (path : String)
    (content : Bytes) :
    (∀ q, (tree.writeFile working path content).tree.node? q ≠ tree.node? q →
      q = resolve working path ∧ tree.node? q ≠ some .directory) ∧
    ((tree.writeFile working path content).complete = true →
      tree.node? (resolve working path) ≠ some .directory) := by
  rw [writeFile]
  split
  · exact ⟨fun q hq => absurd rfl hq, fun h => absurd h (by simp)⟩
  · rename_i place hplace
    obtain rfl := eq_resolve_of_place? hplace
    split
    · exact ⟨fun q hq => absurd rfl hq, fun h => absurd h (by simp)⟩
    · rename_i hfree
      have hnot := (not_or.mp hfree).1
      refine ⟨fun q hq => ?_, fun _ => hnot⟩
      by_cases hqp : q = resolve working path
      · exact ⟨hqp, hqp ▸ hnot⟩
      · exact absurd (node?_set_of_ne _ hqp) hq

end FileTree

end ClassImage.CommandLine
