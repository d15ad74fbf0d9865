import FilterQuery.Proofs.Draft.Clauses

/-!
# Runs step by step

Calls are nested, but a draft hears of them one after the other. A scope is two steps, one that
opens it and one that closes it, with the steps of its calls in between. So the first steps of a
run, as many as one likes, lead to every draft that the run passes through, those within open scopes
included.
-/
namespace FilterQuery

/-- What happens to a draft at one moment. -/
inductive Step where
  | opening (kind : Connective)
  /-- Closes the innermost scope. -/
  | closing
  | test (connector : Connective) (t : Test)
  | orderBy (key : SortKey)
  | offset (n : UInt64)
  | limit (n : UInt64)
  | note (e : Event)

/-- Whether the draft hears of a step, as it does of all but notes. -/
def Step.isCall : Step → Bool
  | note _ => false
  | _ => true

namespace Call

mutual

def steps : Call → List Step
  | test connector t => [.test connector t]
  | scope kind body => .opening kind :: (stepsOfAll body ++ [.closing])
  | orderBy key => [.orderBy key]
  | offset n => [.offset n]
  | limit n => [.limit n]
  | note e => [.note e]

def stepsOfAll : List Call → List Step
  | [] => []
  | c :: cs => steps c ++ stepsOfAll cs

end

theorem stepsOfAll_eq_flatMap (cs : List Call) : stepsOfAll cs = cs.flatMap steps := by
  induction cs with
  | nil => rfl
  | cons c cs ih => rw [stepsOfAll, ih, List.flatMap_cons]

theorem stepsOfAll_append (cs ds : List Call) :
    stepsOfAll (cs ++ ds) = stepsOfAll cs ++ stepsOfAll ds := by
  simp only [stepsOfAll_eq_flatMap, List.flatMap_append]

end Call

namespace Draft

/-- The draft after a step, and what is reported with it. -/
def step (d : Draft) : Step → Draft × List Event
  | .opening kind => (d.openScope kind, [])
  | .closing => d.closeScope
  | .test connector t => d.run (.test connector t)
  | .orderBy key => d.run (.orderBy key)
  | .offset n => d.run (.offset n)
  | .limit n => d.run (.limit n)
  | .note e => d.run (.note e)

/-- The draft after several steps. -/
def after (d : Draft) (steps : List Step) : Draft := steps.foldl (fun d s => (d.step s).1) d

@[simp] theorem after_nil (d : Draft) : d.after [] = d := rfl

@[simp] theorem after_cons (d : Draft) (s : Step) (rest : List Step) :
    d.after (s :: rest) = (d.step s).1.after rest := rfl

theorem after_append (d : Draft) (ss ts : List Step) :
    d.after (ss ++ ts) = (d.after ss).after ts := List.foldl_append

mutual

/-- A call does to a draft what its steps do one by one. -/
theorem after_steps (d : Draft) (c : Call) : d.after c.steps = (d.run c).1 := by
  cases c with
  | scope kind body =>
    have hbody := after_stepsOfAll (d.openScope kind) body
    rw [Call.steps, after_cons, after_append]
    simp only [step, hbody, after_cons, after_nil, run]
  | test _ _ | orderBy _ | offset _ | limit _ | note _ => rfl

theorem after_stepsOfAll (d : Draft) (cs : List Call) :
    d.after (Call.stepsOfAll cs) = (d.runAll cs).1 := by
  cases cs with
  | nil => rfl
  | cons c cs =>
    rw [Call.stepsOfAll, after_append, after_steps d c, after_stepsOfAll (d.run c).1 cs, runAll]

end

end Draft

end FilterQuery
