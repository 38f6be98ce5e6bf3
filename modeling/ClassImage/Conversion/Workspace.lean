import ClassImage.SymbolTable
import ClassImage.Image.Pool
import ClassImage.Conversion.Event

/-!
# The state of a conversion

Classes are entered into the shared symbol table, everything else into the tables of the class being
converted. A step that fails keeps what it entered before; forgetting it again is a step of its own.
-/

namespace ClassImage.Conversion

open ClassFile (Fault)

/-- The state of a conversion. -/
structure Workspace where
  symbols : SymbolTable
  pool : Image.Pool
  events : Array Event
  /-- What was left out so far. -/
  diagnostics : Array Diagnostic

/-- The state before a class is converted. -/
def Workspace.start (symbols : SymbolTable) : Workspace := ⟨symbols, .empty, #[], #[]⟩

/-- Computations that change the state of a conversion and keep the change when they fail. -/
abbrev Convert := ExceptT Error (StateM Workspace)

/-! ### Steps -/

/-- Uses the symbol table. -/
def onSymbols {α : Type} (f : SymbolTable → Except Error α × SymbolTable) : Convert α := fun work =>
  match work with
  | ⟨symbols, pool, events, diagnostics⟩ =>
    match f symbols with
    | (result, symbols) => (result, ⟨symbols, pool, events, diagnostics⟩)

/-- Uses the tables of the class. -/
def onPool {α : Type} (f : Image.Pool → Except Error α × Image.Pool) : Convert α := fun work =>
  match work with
  | ⟨symbols, pool, events, diagnostics⟩ =>
    match f pool with
    | (result, pool) => (result, ⟨symbols, pool, events, diagnostics⟩)

/-- Reports an event. -/
def report (event : Event) : Convert Unit := fun work =>
  match work with
  | ⟨symbols, pool, events, diagnostics⟩ =>
    (.ok (), ⟨symbols, pool, events.push event, diagnostics⟩)

/-- The value of a query on the class file. -/
def ofFile {α : Type} : Except Fault α → Convert α
  | .ok a => pure a
  | .error fault => throw (.ofFault fault)

/-- Interns the name of a class. -/
def internClass (name : String) : Convert ClassId := onSymbols (·.intern name)

/-- Interns a name. -/
def internName (name : String) : Convert NameIndex := onPool (·.internName name)

/-- Interns a constant. -/
def internConstant (constant : Image.Constant) : Convert ConstantIndex :=
  onPool (·.internConstant constant)

/-- Interns a string constant. -/
def internString (text : String) : Convert ConstantIndex := onPool (·.internString text)

/-- Interns a member. -/
def internMember (name descriptor : String) : Convert MemberIndex :=
  onPool (·.internMember name descriptor)

end ClassImage.Conversion
