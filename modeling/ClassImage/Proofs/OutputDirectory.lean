import ClassImage.CommandLine.Run
import ClassImage.Proofs.FileTree

/-!
# What a run writes

A run makes its output directory first, then for each class the directories and the file that the
name of the class leads to, and last the file of the symbol table. Once there are directories all
along the way to the output directory, none of them is changed again (`not_touched_of_directory`),
so every change is further on (`within_of_touched`).

The names of classes are those that stand in the class files. One that starts with a slash, or leads
up more often than it led down before, leads out of the output directory (`leadsOut`), and its image
is written where it leads. If the output directory itself is written with two dots, the directories
that lead to them are made as well (`Detour`). Everything else that a run creates or overwrites is
in the output directory or above it.

How arguments are read and inputs are found is left open: all this holds of every request and of all
inputs.
-/

namespace ClassImage.CommandLine

/-! ### Touched places -/

/-- Performing actions creates or overwrites what stands at a place: an action changes it, or writes
the file there. Actions come into question until one fails. -/
inductive Touched (working : List String) : FileTree → List Action → List String → Prop
  | changed {tree : FileTree} {action : Action} {rest : List Action} {place : List String}
      (h : (action.attempt working tree).tree.node? place ≠ tree.node? place) :
      Touched working tree (action :: rest) place
  | written {tree : FileTree} {path : String} {content : Bytes} {rest : List Action}
      {place : List String}
      (hplace : tree.place? working path = some place)
      (hcomplete : (tree.writeFile working path content).complete = true) :
      Touched working tree (.write path content :: rest) place
  | later {tree : FileTree} {action : Action} {rest : List Action} {place : List String}
      (hcomplete : (action.attempt working tree).complete = true)
      (h : Touched working (action.attempt working tree).tree rest place) :
      Touched working tree (action :: rest) place

variable {working : List String} {tree : FileTree} {actions : List Action} {place : List String}

/-- What differs in the end was touched. -/
theorem touched_of_performAll {exitCode : Nat} {output : String}
    (h : (performAll working exitCode tree output actions).tree.node? place ≠ tree.node? place) :
    Touched working tree actions place := by
  induction actions generalizing tree output with
  | nil => exact absurd rfl h
  | cons action rest ih =>
    by_cases hchanged : (action.attempt working tree).tree.node? place = tree.node? place
    · rw [performAll] at h
      split at h
      · rename_i hcomplete
        exact .later hcomplete (ih (by rwa [hchanged]))
      · exact absurd hchanged h
    · exact .changed hchanged

/-- No action does away with a directory. -/
theorem attempt_directory (action : Action) (h : tree.node? place = some .directory) :
    (action.attempt working tree).tree.node? place = some .directory := by
  cases action with
  | makeDirectories path =>
    exact (FileTree.makesOnly_makeDirectories tree working path).1.directory h
  | write path content =>
    by_contra hchanged
    exact ((FileTree.node?_writeFile tree working path content).1 place (by rwa [h])).2 h
  | print text => exact h
  | abort => exact h

/-- **A directory is never touched.** -/
theorem not_touched_of_directory (h : tree.node? place = some .directory) :
    ¬ Touched working tree actions place := by
  intro htouched
  induction htouched with
  | changed hchanged => exact hchanged ((attempt_directory _ h).trans h.symm)
  | written hplace hcomplete =>
    rw [FileTree.eq_resolve_of_place? hplace] at h
    exact (FileTree.node?_writeFile _ _ _ _).2 hcomplete h
  | later hcomplete _ ih => exact ih (attempt_directory _ h)

/-- The places that an action leads to. -/
def Action.places (working : List String) : Action → List (List String)
  | .makeDirectories path => trail working path
  | .write path _ => [resolve working path]
  | .print _ => []
  | .abort => []

/-- What is touched is a place that some action leads to. -/
theorem Touched.exists_action (h : Touched working tree actions place) :
    ∃ action ∈ actions, place ∈ action.places working := by
  induction h with
  | @changed tree action rest place h =>
    refine ⟨action, List.mem_cons_self, ?_⟩
    cases action with
    | makeDirectories path =>
      exact ((FileTree.makesOnly_makeDirectories tree working path).1 place h).1
    | write path content =>
      exact List.mem_singleton.mpr
        ((FileTree.node?_writeFile tree working path content).1 place h).1
    | print text => exact absurd rfl h
    | abort => exact absurd rfl h
  | written hplace _ =>
    exact ⟨_, List.mem_cons_self, List.mem_singleton.mpr (FileTree.eq_resolve_of_place? hplace)⟩
  | later _ _ ih =>
    obtain ⟨action, haction, hplace⟩ := ih
    exact ⟨action, List.mem_cons_of_mem _ haction, hplace⟩

/-! ### Images of classes -/

/-- The name of the class in a file, if it can be read. -/
def classNameOf (bytes : Bytes) : Option String :=
  ((ClassFile.ofBytes bytes).bind ClassFile.name).toOption

theorem enterClasses_names (symbols : SymbolTable) (inputs : List (String × Bytes)) :
    (enterClasses symbols inputs).1 = inputs.map fun input => classNameOf input.2 := by
  have hnames : (enterClasses symbols inputs).1.reverse =
      inputs.foldl (fun names input => classNameOf input.2 :: names) [] := by
    unfold enterClasses
    refine (List.reverse_reverse _).trans (List.foldl_hom Prod.fst ?_).symm
    rintro ⟨names, table⟩ ⟨path, bytes⟩
    cases hfile : ClassFile.ofBytes bytes with
    | error fault => simp only [classNameOf, hfile, Except.bind, Except.toOption]
    | ok classFile => simp only [classNameOf, hfile, Except.bind]
  rw [← List.reverse_reverse (enterClasses symbols inputs).1, hnames]
  simp

/-- Whether the name of a class leads out of the directory in which images are written: it starts at
the root, or leads up more often than it led down before. -/
def leadsOut (name : String) : Bool :=
  (Path.ofString (name ++ ".tcls")).absolute ||
    !staysBelow 0 (Path.ofString (name ++ ".tcls")).names

theorem exists_toList_joinPath (directory path : String) :
    ∃ front, (joinPath directory path).toList = front ++ path.toList := by
  rw [joinPath]
  split
  · exact ⟨[], rfl⟩
  · split
    · exact ⟨directory.toList, String.toList_append⟩
    · exact ⟨(directory ++ "/").toList, String.toList_append⟩

/-- The path of an image ends in a name. -/
theorem names_imagePath_ne_nil (directory name : String) :
    (Path.ofString (joinPath directory (name ++ ".tcls"))).names ≠ [] := by
  obtain ⟨front, hfront⟩ := exists_toList_joinPath directory (name ++ ".tcls")
  rw [names_ofString, hfront, String.toList_append, ← List.append_assoc]
  exact namesOf_append_ne_nil (by decide) (by decide) _

/-- Writing an image leads to places on the way to it. -/
theorem mem_trail_of_imageActions {options : Options} {name : String} {bytes : Bytes}
    {action : Action} (haction : action ∈ imageActions options name bytes)
    (hplace : place ∈ action.places working) :
    place ∈ trail working (joinPath options.outputDirectory (name ++ ".tcls")) := by
  rw [imageActions] at haction
  rcases List.mem_append.mp haction with haction | haction
  · rcases List.mem_cons.mp haction with rfl | haction
    · exact trail_parentPath_subset working _ hplace
    · obtain rfl := List.mem_singleton.mp haction
      obtain rfl := List.mem_singleton.mp hplace
      exact foldl_follow_mem_trailFrom (names_imagePath_ne_nil _ _) _
  · -- Nothing is written to show an image.
    have hshown : action.places working = [] := by
      split at haction
      · split at haction <;> rw [List.mem_singleton.mp haction] <;> rfl
      · exact absurd haction List.not_mem_nil
    rw [hshown] at hplace
    exact absurd hplace List.not_mem_nil

theorem exists_name_of_classActions {options : Options} {path : String} {className : Option String}
    {result : Except (List Conversion.Diagnostic) (Bytes × List Conversion.Diagnostic)}
    {action : Action} (haction : action ∈ classActions options path className result)
    (hplace : place ∈ action.places working) :
    ∃ name, className = some name ∧
      place ∈ trail working (joinPath options.outputDirectory (name ++ ".tcls")) := by
  have hprinted : ∀ text, action ≠ .print text := by
    rintro text rfl
    exact absurd hplace List.not_mem_nil
  unfold classActions at haction
  rcases result with diagnostics | ⟨bytes, diagnostics⟩
  · exact absurd (List.mem_singleton.mp haction) (hprinted _)
  · rcases List.mem_append.mp haction with haction | haction
    · cases className with
      | none => exact absurd haction List.not_mem_nil
      | some name => exact ⟨name, rfl, mem_trail_of_imageActions haction hplace⟩
    · exact absurd (List.mem_singleton.mp haction) (hprinted _)

/-! ### Runs -/

/-- A place that a run may touch: the output directory or something below it, or a place above it at
which nothing stood. -/
def Within (working : List String) (tree : FileTree) (directory : String) (place : List String) :
    Prop :=
  resolve working directory <+: place ∨ place <+: resolve working directory ∧
    tree.node? place = none

/-- A place that is on the way to the output directory but not above it, because the way leads up
again. -/
def Detour (working : List String) (tree : FileTree) (directory : String) (place : List String) :
    Prop :=
  ".." ∈ (Path.ofString directory).names ∧ place ∈ trail working directory ∧ tree.node? place = none

/-- Directories on the way to the output directory are above it, unless the way leads up. -/
theorem within_or_detour {directory : String} (hplace : place ∈ trail working directory)
    (hnone : tree.node? place = none) :
    Within working tree directory place ∨ Detour working tree directory place := by
  by_cases hup : ".." ∈ (Path.ofString directory).names
  · exact Or.inr ⟨hup, hplace, hnone⟩
  · exact Or.inl (Or.inr ⟨(prefix_foldl_of_mem_trailFrom hup _).2 place hplace, hnone⟩)

/-- Beyond the way to the directory, a path that never leads up is within it. -/
theorem prefix_of_mem_trail_joinPath {directory path : String}
    (hpath : (Path.ofString path).absolute = false)
    (hstays : staysBelow 0 (Path.ofString path).names = true)
    (hplace : place ∈ trail working (joinPath directory path))
    (hbeyond : place ∉ trail working directory) :
    resolve working directory <+: place := by
  rw [trail_joinPath hpath] at hplace
  rcases List.mem_append.mp hplace with hplace | hplace
  · exact absurd hplace hbeyond
  · exact prefix_of_mem_trailFrom List.prefix_rfl rfl hstays place hplace

/-- Where the actions of a run lead. -/
theorem within_of_touched {options : Options} {inputs : List (String × Bytes)}
    {names : List (Option String)}
    {results : List (Except (List Conversion.Diagnostic) (Bytes × List Conversion.Diagnostic))}
    {symbols : SymbolTable}
    (h : Touched working tree (planOf options inputs names results symbols).actions place) :
    (Within working tree options.outputDirectory place ∨
      Detour working tree options.outputDirectory place) ∨
      ∃ name, some name ∈ names ∧ leadsOut name = true ∧
        place ∈ trail working (joinPath options.outputDirectory (name ++ ".tcls")) := by
  have hmake := FileTree.makesOnly_makeDirectories tree working options.outputDirectory
  unfold planOf at h
  rcases h with h | _ | ⟨hcomplete, h⟩
  · obtain ⟨hplace, hnone⟩ := hmake.1 place h
    exact Or.inl (within_or_detour hplace hnone)
  · -- From here on there are directories all along the way to the output directory.
    have hbeyond : place ∉ trail working options.outputDirectory :=
      fun hplace => not_touched_of_directory (hmake.2 hcomplete place hplace) h
    obtain ⟨action, haction, hplace⟩ := h.exists_action
    rcases List.mem_append.mp haction with haction | haction
    · obtain ⟨⟨⟨⟨path, bytes⟩, className⟩, result⟩, hclass, haction⟩ := List.mem_flatMap.mp haction
      obtain ⟨name, rfl, hplace⟩ := exists_name_of_classActions haction hplace
      cases hout : leadsOut name with
      | true =>
        have hname : some name ∈ names := (List.of_mem_zip (List.of_mem_zip hclass).1).2
        exact Or.inr ⟨name, hname, hout, hplace⟩
      | false =>
        rw [leadsOut, Bool.or_eq_false_iff, Bool.not_eq_false'] at hout
        exact Or.inl (Or.inl (Or.inl (prefix_of_mem_trail_joinPath hout.1 hout.2 hplace hbeyond)))
    · rw [List.mem_singleton.mp haction] at hplace
      split at hplace
      · -- The symbol table is a file of the output directory.
        obtain rfl := List.mem_singleton.mp hplace
        rw [Within, resolve_joinPath (by decide)]
        exact Or.inl (Or.inl (Or.inl (List.prefix_append _ ["classes.tsym"])))
      · exact absurd hplace List.not_mem_nil

/-- What a run changes is touched by one of its actions. -/
theorem touched_of_serve {read : Options → List (String × Bytes)} {options : Options}
    (h : (serve working tree read (.run options)).tree.node? place ≠ tree.node? place) :
    Touched working tree (plan options (read options)).actions place :=
  touched_of_performAll h

/-- **A run writes in its output directory**, apart from the images of classes whose names lead out
of it and, if the output directory is written with two dots, directories from which the way to it
leads up again. Without a request to run nothing is written at all. The request is any that
arguments can be taken for, the inputs are any that can be found, and the results and the symbol
table are any that conversions come to, in whatever order they are done. -/
theorem serve_stays_within (working : List String) (tree : FileTree)
    (read : Options → List (String × Bytes)) (request : Request) :
    ((∀ options, request ≠ .run options) → (serve working tree read request).tree = tree) ∧
    ∀ options, request = .run options → ∀ results symbols place,
      Touched working tree (planOf options (read options)
        (enterClasses .empty (read options)).1 results symbols).actions place →
        Within working tree options.outputDirectory place ∨
        Detour working tree options.outputDirectory place ∨
        ∃ input ∈ read options, ∃ name, classNameOf input.2 = some name ∧ leadsOut name = true ∧
          place ∈ trail working (joinPath options.outputDirectory (name ++ ".tcls")) := by
  refine ⟨fun hother => ?_, fun options _ results symbols place h => ?_⟩
  · cases request with
    | run options => exact absurd rfl (hother options)
    | version => rfl
    | help => rfl
    | usageError => rfl
  · rw [← or_assoc]
    refine (within_of_touched h).imp_right ?_
    rintro ⟨name, hname, hout, hplace⟩
    rw [enterClasses_names] at hname
    obtain ⟨input, hinput, hname⟩ := List.mem_map.mp hname
    exact ⟨input, hinput, name, hname, hout, hplace⟩

/-- The file of a class without members. -/
def emptyClass (name : Bytes) : Bytes :=
  [0xCA, 0xFE, 0xBA, 0xBE, 0x00, 0x00, 0x00, 0x34, 0x00, 0x03, 0x01, 0x00,
    UInt8.ofNat name.length] ++ name ++
    [0x07, 0x00, 0x01, 0x00, 0x21, 0x00, 0x02, 0x00, 0x00, 0x00, 0x00, 0x00, 0x00,
      0x00, 0x00, 0x00, 0x00]

/-- A working directory with the file of one class. -/
def singleClass (name : Bytes) : FileTree :=
  ⟨[(["home"], .directory), (["home", "work"], .directory),
    (["home", "work", "in.class"], .file (emptyClass name))]⟩

/-- The class in this tree is named `a/../b`. -/
def insideTree : FileTree := singleClass [0x61, 0x2F, 0x2E, 0x2E, 0x2F, 0x62]

/-- The class in this tree is named `../up`. -/
def outsideTree : FileTree := singleClass [0x2E, 0x2E, 0x2F, 0x75, 0x70]

/-- What is asked for by naming the file of the class. -/
def singleOptions : Options := ⟨"out", {}, false, false, ["in.class"]⟩

/-- The same with an output directory that is reached through another one. -/
def detourOptions : Options := { singleOptions with outputDirectory := "a/../b" }

/-- The name `a/../b` leads up after it led down, so the image is written in the output
directory. -/
theorem insideTree_stays_within : parse ["in.class"] = .run singleOptions ∧
    Touched ["home", "work"] insideTree
      (plan singleOptions (inputsOf ["home", "work"] insideTree singleOptions)).actions
      ["home", "work", "out", "b.tcls"] ∧
    Within ["home", "work"] insideTree "out" ["home", "work", "out", "b.tcls"] := by
  have htouched : Touched ["home", "work"] insideTree
      (plan singleOptions (inputsOf ["home", "work"] insideTree singleOptions)).actions
      ["home", "work", "out", "b.tcls"] := touched_of_serve (by decide +kernel)
  refine ⟨by decide +kernel, htouched, ?_⟩
  have hwhere :=
    (serve_stays_within ["home", "work"] insideTree (inputsOf ["home", "work"] insideTree)
      (.run singleOptions)).2 singleOptions rfl _ _ _ htouched
  have hstays : ∀ input ∈ inputsOf ["home", "work"] insideTree singleOptions,
      (classNameOf input.2).all (!leadsOut ·) = true := by decide +kernel
  rcases hwhere with hwithin | ⟨hup, -⟩ | ⟨input, hinput, name, hname, hout, -⟩
  · exact hwithin
  · exact absurd hup (by decide +kernel)
  · have hnot := hstays input hinput
    rw [hname, Option.all_some, hout] at hnot
    exact absurd hnot (by decide)

/-- **A class `../up` is written beside the output directory.** With the output directory `a/../b`,
a directory `a` is made that is not above it. -/
theorem outsideTree_leads_out : parse ["in.class"] = .run singleOptions ∧
    Touched ["home", "work"] outsideTree
      (plan singleOptions (inputsOf ["home", "work"] outsideTree singleOptions)).actions
      ["home", "work", "up.tcls"] ∧
    ¬ Within ["home", "work"] outsideTree "out" ["home", "work", "up.tcls"] ∧
    parse ["-o", "a/../b", "in.class"] = .run detourOptions ∧
    Touched ["home", "work"] insideTree
      (plan detourOptions (inputsOf ["home", "work"] insideTree detourOptions)).actions
      ["home", "work", "a"] ∧
    ¬ Within ["home", "work"] insideTree "a/../b" ["home", "work", "a"] := by
  refine ⟨by decide +kernel, touched_of_serve (by decide +kernel), ?_, by decide +kernel,
    touched_of_serve (by decide +kernel), ?_⟩
  · rw [Within]
    decide +kernel
  · rw [Within]
    decide +kernel

end ClassImage.CommandLine
