import FilterQuery.Proofs.Draft.Clauses
import Mathlib.Data.List.Induction

/-!
# How the calls of a draft are read

Calls write a condition as SQL has it: a chain of tests and parenthesized chains with a connective
before each but the first. SQL's grammar reads such a chain, AND before OR. The condition of the
query is true exactly as that reading is, and its atoms are the tests in call order.
-/
namespace FilterQuery

/-- What stands between the connectives of a chain. -/
inductive Factor where
  | test (t : Test)
  /-- A chain between parentheses; no connective stands before its first factor. -/
  | group (first : Factor) (rest : List (Connective × Factor))

abbrev Link := Connective × Factor

namespace Reading

mutual

/-- A boolean factor: a test, or a chain between parentheses. -/
inductive OfFactor (v : Expr → Truth) : Factor → Truth → Prop where
  | test (t : Test) : OfFactor v (.test t) (v t.expr)
  | group {first : Factor} {rest : List Link} {a : Truth} (chain : OfChain v first rest a) :
      OfFactor v (.group first rest) a

/-- A boolean term: a factor, or a term AND a factor. -/
inductive OfTerm (v : Expr → Truth) : Factor → List Link → Truth → Prop where
  | factor {f : Factor} {a : Truth} (factor : OfFactor v f a) : OfTerm v f [] a
  | and {first f : Factor} {rest : List Link} {a b : Truth} (term : OfTerm v first rest a)
      (factor : OfFactor v f b) : OfTerm v first (rest ++ [(.and, f)]) (Truth.join .and a b)

/-- A search condition: a term, or a condition OR a term. -/
inductive OfChain (v : Expr → Truth) : Factor → List Link → Truth → Prop where
  | term {first : Factor} {rest : List Link} {a : Truth} (term : OfTerm v first rest a) :
      OfChain v first rest a
  | or {first f : Factor} {rest more : List Link} {a b : Truth} (chain : OfChain v first rest a)
      (term : OfTerm v f more b) : OfChain v first (rest ++ (.or, f) :: more) (Truth.join .or a b)

end

end Reading

namespace Call

mutual

/-- What a call writes into the chain of a scope of kind `kind`. A scope that wrote nothing leaves
nothing, and another one stands as a single factor, joined by the kind of the scope around it. -/
def links (kind : Connective) : Call → List Link
  | test connector t => [(connector, .test t)]
  | scope inner body =>
    match linksOfAll inner body with
    | [] => []
    | (_, first) :: rest => [(kind, .group first rest)]
  | orderBy _ | offset _ | limit _ | note _ => []

def linksOfAll (kind : Connective) : List Call → List Link
  | [] => []
  | c :: cs => links kind c ++ linksOfAll kind cs

end

mutual

def tests : Call → List Test
  | test _ t => [t]
  | scope _ body => testsOfAll body
  | orderBy _ | offset _ | limit _ | note _ => []

def testsOfAll : List Call → List Test
  | [] => []
  | c :: cs => tests c ++ testsOfAll cs

end

end Call

namespace Factor

mutual

def expr : Factor → Expr
  | test t => t.expr
  | group first rest => Clause.chain first.expr (clausesOf rest)

def clausesOf : List Link → List Clause
  | [] => []
  | (c, f) :: rest => ⟨c, f.expr⟩ :: clausesOf rest

end

theorem clausesOf_append (as bs : List Link) :
    clausesOf (as ++ bs) = clausesOf as ++ clausesOf bs := by
  induction as with
  | nil => rfl
  | cons a as ih => simp [clausesOf, ih]

theorem connectors_clausesOf {rest : List Link} {c : Connective} (h : ∀ l ∈ rest, l.1 = c) :
    ∀ x ∈ clausesOf rest, x.connector = c := by
  induction rest with
  | nil => simp [clausesOf]
  | cons l rest ih =>
    intro x hx
    rcases List.mem_cons.mp hx with rfl | hx
    · exact h l List.mem_cons_self
    · exact ih (fun m hm => h m (List.mem_cons_of_mem _ hm)) x hx

end Factor

namespace Reading

open Factor (clausesOf clausesOf_append connectors_clausesOf)

theorem OfTerm.connectors {v : Expr → Truth} {first : Factor} {rest : List Link} {a : Truth}
    (h : OfTerm v first rest a) : ∀ l ∈ rest, l.1 = .and :=
  match h with
  | .factor _ => by simp
  | .and term _ => by
    intro l hl
    rcases List.mem_append.mp hl with hl | hl
    · exact term.connectors l hl
    · rw [List.mem_singleton.mp hl]

mutual

/-- A reading has the truth of the expression, so there is at most one. -/
theorem OfFactor.truth_expr {v : Expr → Truth} {f : Factor} {a : Truth} (h : OfFactor v f a) :
    f.expr.truth v = a :=
  match h with
  | .test t => Test.truth_expr v t
  | .group chain => chain.truth_chain

theorem OfTerm.truth_chain {v : Expr → Truth} {first : Factor} {rest : List Link} {a : Truth}
    (h : OfTerm v first rest a) : (Clause.chain first.expr (clausesOf rest)).truth v = a :=
  match h with
  | .factor factor => factor.truth_expr
  | @OfTerm.and _ _ f rest _ _ term factor => by
    have hand := connectors_clausesOf term.connectors
    have hall : ∀ x ∈ clausesOf rest ++ [⟨.and, f.expr⟩], x.connector = .and := by
      intro x hx
      rcases List.mem_append.mp hx with hx | hx
      · exact hand x hx
      · rw [List.mem_singleton.mp hx]
    have hterm := term.truth_chain
    rw [Clause.chain_of_and _ hand] at hterm
    rw [clausesOf_append, clausesOf, clausesOf, Clause.chain_of_and _ hall]
    simp [hterm, factor.truth_expr]

theorem OfChain.truth_chain {v : Expr → Truth} {first : Factor} {rest : List Link} {a : Truth}
    (h : OfChain v first rest a) : (Clause.chain first.expr (clausesOf rest)).truth v = a :=
  match h with
  | .term term => term.truth_chain
  | .or chain term => by
    have hand := connectors_clausesOf term.connectors
    rw [clausesOf_append, clausesOf, Clause.chain_append_or _ _ _ hand, Expr.truth_join,
      chain.truth_chain, term.truth_chain]

end

/-- A chain is a term, or it is cut at its last OR. -/
theorem exists_chain {v : Expr → Truth} {first : Factor} {rest : List Link}
    (hfirst : ∃ a, OfFactor v first a) (hrest : ∀ l ∈ rest, ∃ a, OfFactor v l.2 a) :
    (∃ a, OfTerm v first rest a) ∨
      ∃ before f more a b, rest = before ++ (.or, f) :: more ∧ OfChain v first before a ∧
        OfTerm v f more b := by
  induction rest using List.reverseRecOn with
  | nil =>
    obtain ⟨a, ha⟩ := hfirst
    exact Or.inl ⟨a, .factor ha⟩
  | append_singleton rest l ih =>
    obtain ⟨c, g⟩ := l
    obtain ⟨t, hg⟩ := hrest (c, g) (by simp)
    have hcut := ih fun l hl => hrest l (List.mem_append_left _ hl)
    rcases hcut with ⟨a, hterm⟩ | ⟨before, f, more, a, b, rfl, hchain, hterm⟩
    · cases c with
      | and => exact Or.inl ⟨_, .and hterm hg⟩
      | or => exact Or.inr ⟨rest, g, [], a, t, rfl, .term hterm, .factor hg⟩
    · cases c with
      | and => exact Or.inr ⟨before, f, more ++ [(.and, g)], a, _, by simp, hchain, .and hterm hg⟩
      | or => exact Or.inr ⟨_, g, [], _, t, rfl, .or hchain hterm, .factor hg⟩

theorem OfChain.exists {v : Expr → Truth} {first : Factor} {rest : List Link}
    (hfirst : ∃ a, OfFactor v first a) (hrest : ∀ l ∈ rest, ∃ a, OfFactor v l.2 a) :
    ∃ a, OfChain v first rest a := by
  rcases exists_chain hfirst hrest with ⟨a, h⟩ | ⟨before, f, more, a, b, rfl, hchain, hterm⟩
  · exact ⟨a, .term h⟩
  · exact ⟨_, .or hchain hterm⟩

mutual

theorem OfFactor.exists (v : Expr → Truth) (f : Factor) : ∃ a, OfFactor v f a := by
  cases f with
  | test t => exact ⟨_, .test t⟩
  | group first rest =>
    obtain ⟨a, h⟩ := OfChain.exists (OfFactor.exists v first) (OfFactor.exists_of_mem v rest)
    exact ⟨a, .group h⟩

theorem OfFactor.exists_of_mem (v : Expr → Truth) (rest : List Link) :
    ∀ l ∈ rest, ∃ a, OfFactor v l.2 a := by
  cases rest with
  | nil => simp
  | cons l rest =>
    obtain ⟨c, f⟩ := l
    intro m hm
    rcases List.mem_cons.mp hm with rfl | hm
    · exact OfFactor.exists v f
    · exact OfFactor.exists_of_mem v rest m hm

end

/-- SQL reads a chain in exactly one way: as the expression that its clauses combine to. -/
theorem ofChain_iff (v : Expr → Truth) (first : Factor) (rest : List Link) (a : Truth) :
    OfChain v first rest a ↔ (Clause.chain first.expr (clausesOf rest)).truth v = a := by
  constructor
  · exact OfChain.truth_chain
  · rintro rfl
    obtain ⟨b, h⟩ := OfChain.exists (OfFactor.exists v first) (OfFactor.exists_of_mem v rest)
    rw [h.truth_chain]
    exact h

end Reading

namespace Call

mutual

theorem clauses_eq_links (kind : Connective) (c : Call) :
    c.clauses kind = Factor.clausesOf (c.links kind) := by
  cases c with
  | test connector t => rfl
  | scope inner body =>
    rw [clauses, clausesOfAll_eq_links inner body, links]
    cases hl : linksOfAll inner body with
    | nil => rfl
    | cons l rest =>
      obtain ⟨c, first⟩ := l
      rw [Factor.clausesOf, Clause.combine_cons]
      rfl
  | orderBy _ | offset _ | limit _ | note _ => rfl

theorem clausesOfAll_eq_links (kind : Connective) (cs : List Call) :
    clausesOfAll kind cs = Factor.clausesOf (linksOfAll kind cs) := by
  cases cs with
  | nil => rfl
  | cons c cs =>
    rw [clausesOfAll, linksOfAll, Factor.clausesOf_append, clauses_eq_links kind c,
      clausesOfAll_eq_links kind cs]

end

mutual

theorem atoms_clauses (kind : Connective) (c : Call) :
    (c.clauses kind).flatMap (fun x => x.expr.atoms) = c.tests.map Test.expr := by
  cases c with
  | test connector t => simp [clauses, tests]
  | scope inner body =>
    have hbody := Clause.atoms_combine (clausesOfAll inner body)
    rw [atoms_clausesOfAll inner body] at hbody
    rw [tests, ← hbody, clauses]
    cases Clause.combine (clausesOfAll inner body) <;> simp
  | orderBy _ | offset _ | limit _ | note _ => rfl

/-- No test is lost, made twice or moved. -/
theorem atoms_clausesOfAll (kind : Connective) (cs : List Call) :
    (clausesOfAll kind cs).flatMap (fun x => x.expr.atoms) = (testsOfAll cs).map Test.expr := by
  cases cs with
  | nil => rfl
  | cons c cs =>
    rw [clausesOfAll, testsOfAll, List.flatMap_append, List.map_append, atoms_clauses kind c,
      atoms_clausesOfAll kind cs]

end

end Call

/-- The condition that calls leave in a fresh draft is the one reading of the chain they write,
under every truth assignment, and its atoms are the tests in call order. -/
theorem Draft.condition_reads_chain (table : String) (columns : List String) (calls : List Call) :
    let condition := (((ofTable table).withColumns columns).runAll calls).1.toSelect.condition
    (match Call.linksOfAll .and calls with
      | [] => condition = none
      | (_, first) :: rest => ∃ e, condition = some e ∧
          ∀ v a, Reading.OfChain v first rest a ↔ e.truth v = a) ∧
      (condition.map Expr.atoms).getD [] = (Call.testsOfAll calls).map Test.expr := by
  intro condition
  have hcond : condition = Clause.combine (Call.clausesOfAll .and calls) :=
    condition_runAll table columns calls
  constructor
  · rw [hcond, Call.clausesOfAll_eq_links]
    cases Call.linksOfAll .and calls with
    | nil => rfl
    | cons l rest =>
      obtain ⟨c, first⟩ := l
      exact ⟨_, Clause.combine_cons c first.expr _, fun v a => Reading.ofChain_iff v first rest a⟩
  · rw [hcond, Clause.atoms_combine, Call.atoms_clausesOfAll]

/-- An empty scope leaves no trace, and a scope is joined by the kind of the scope around it. -/
example (a b c : Test) :
    Call.linksOfAll .and [.scope .or [], .test .or a, .scope .or [.test .or b, .test .and c]] =
      [(.or, .test a), (.and, .group (.test b) [(.and, .test c)])] := rfl

end FilterQuery
