import Fern.Program
import Fern.Resolve.Error
import Fern.Syntax.Term

/-!
# Type declarations

All type names of a program are declared before any of their bodies is looked at, so a type may be
used before its declaration and inside itself. Constructors are unique across all types, fields
within their record.
-/

namespace Fern

mutual

/-- What a written type means, when the given names are known. -/
def TypeTerm.resolve (known : List String) : TypeTerm → Except ResolveError TypeInfo
  | .name n => if known.contains n then .ok (.named n []) else .error ⟨.unknownType n, none⟩
  | .tuple items => do return .tuple (← TypeTerm.resolveAll known items)
  | .function param result => do
    let param ← param.resolve known
    let result ← result.resolve known
    return .function param result
  | .other tag _ => .error ⟨.unknownTypeForm tag, none⟩

def TypeTerm.resolveAll (known : List String) :
    List TypeTerm → Except ResolveError (List TypeInfo)
  | [] => .ok []
  | t :: rest => do
    let type ← t.resolve known
    let types ← TypeTerm.resolveAll known rest
    return type :: types

end

/-- Refuses a type name that is taken, or that one of the later declarations takes again. -/
def checkTypeNames (taken : List String) : List TypeDecl → Except ResolveError Unit
  | [] => .ok ()
  | decl :: rest =>
    if taken.contains decl.name || TypeInfo.primitives.contains decl.name then
      .error ⟨.duplicateType decl.name, none⟩
    else checkTypeNames (taken ++ [decl.name]) rest

/-- The variants of a sum type, when some constructor names are taken. -/
def resolveVariants (known taken : List String) :
    List VariantDecl → Except ResolveError (List Variant)
  | [] => .ok []
  | decl :: rest => do
    if taken.contains decl.name then throw ⟨.duplicateConstructor decl.name, none⟩
    let payload ← decl.payload.mapM (TypeTerm.resolve known)
    let others ← resolveVariants known (decl.name :: taken) rest
    return ⟨decl.name, payload⟩ :: others

/-- The fields of a record type, when some of them have been declared. -/
def resolveFields (known : List String) (record : String) (taken : List String) :
    List FieldDecl → Except ResolveError (List FieldDef)
  | [] => .ok []
  | decl :: rest => do
    if taken.contains decl.name then throw ⟨.duplicateField decl.name record, none⟩
    let type ← decl.type.resolve known
    let others ← resolveFields known record (decl.name :: taken) rest
    return ⟨decl.name, type⟩ :: others

/-- The definition that a type declaration stands for. -/
def TypeDecl.resolve (known taken : List String) (decl : TypeDecl) :
    Except ResolveError TypeDef :=
  match decl.body with
  | .sum variants => do return ⟨decl.name, .sum (← resolveVariants known taken variants)⟩
  | .record fields => do return ⟨decl.name, .record (← resolveFields known decl.name [] fields)⟩

def constructorNames (types : List TypeDef) : List String :=
  types.flatMap fun def_ => def_.variants.map (·.name)

/-- Adds the definitions of type declarations to a program, in order, when all type names are
known. -/
def addTypeDecls (known : List String) (program : Program) :
    List TypeDecl → Except ResolveError Program
  | [] => .ok program
  | decl :: rest => do
    let def_ ← decl.resolve known (constructorNames program.types)
    addTypeDecls known (program.addType def_) rest

/-- The type names that declarations may use on top of a program. -/
def knownTypes (program : Program) (decls : List TypeDecl) : List String :=
  TypeInfo.primitives ++ program.types.map (·.name) ++ decls.map (·.name)

def Program.declareTypes (program : Program) (decls : List TypeDecl) :
    Except ResolveError Program := do
  checkTypeNames (program.types.map (·.name)) decls
  addTypeDecls (knownTypes program decls) program decls

end Fern
