import FieldProcedure.Step.Basic
import FieldProcedure.Failure

/-! The conditions that a workflow must meet, level by level and through groups only: indexes are
distinct and none is that of the level's start or end, paths stay in the level, a dynamic selection
has a source, and no id is supplied twice in the whole tree. -/
namespace FieldProcedure.Vetting

def scope (level : List Step) : List Int := level.map (·.index) ++ [startIndex, finishIndex]

def checkIndexes (level : List Step) : Except CompileError Unit :=
  match level.find? fun s => s.index = startIndex || s.index = finishIndex with
  | some s => .error (.reservedIndex s.index)
  | none =>
    match firstRepeat? [] (level.map (·.index)) with
    | some index => .error (.duplicateIndex index)
    | none => .ok ()

def checkId (seen : List String) (s : Step) : Except CompileError (List String) :=
  match s.suppliedId? with
  | none => .ok seen
  | some id => if id ∈ seen then .error (.duplicateId id) else .ok (id :: seen)

def checkPaths (scope : List Int) (s : Step) : Except CompileError Unit :=
  match s.paths.find? fun p => p.target ∉ scope with
  | some p => .error (.unresolvedTarget s.index p.target)
  | none => .ok ()

def checkSource (s : Step) : Except CompileError Unit :=
  if s.kind = .selection && s.config.flag "dynamic" false && s.options.all Text.isAllBlank then
    .error (.missingSource s.index)
  else .ok ()

mutual
def checkStep (level : List Int) (seen : List String) : Step → Except CompileError (List String)
  | ⟨id, index, title, description, tag, kind, paths, options, config, children⟩ => do
    let s : Step := ⟨id, index, title, description, tag, kind, paths, options, config, children⟩
    let seen ← checkId seen s
    checkPaths level s
    checkSource s
    if kind = .group then
      checkIndexes children
      checkSteps (scope children) seen children
    else pure seen

def checkSteps (level : List Int) (seen : List String) :
    List Step → Except CompileError (List String)
  | [] => .ok seen
  | s :: rest => do
    let seen ← checkStep level seen s
    checkSteps level seen rest
end

def suppliedIds (steps : List Step) : Except CompileError (List String) := do
  checkIndexes steps
  checkSteps (scope steps) [] steps

end FieldProcedure.Vetting
