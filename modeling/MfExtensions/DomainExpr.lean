import MfExtensions.Condition

/-!
# Domain expressions

`ma_domain_cond`, `ma_domain_andexpr` and `ma_domain_expr`: the `WHERE` clause of a rule, a list
of and-expressions, alternatives, each a list of domain conditions.
-/

namespace MfExtensions

/-- `ma_domain_cond`: a parenthesised expression, or a chain of sources and targets joined by `=`,
the last of them a string literal unless it is empty. -/
inductive DomainCond (C : Type)
  | expr (e : List (List (DomainCond C)))
  | chain (conds : List (C × ArgT)) (str : String)

abbrev DomainExpr (C : Type) := List (List (DomainCond C))

namespace DomainCond

/-- Intersect each domain with the next of the worksheet, starting it again at its end. -/
def intersectCycle (worksheet : Domains) : Domains → Domains → Except Err Domains
  | [], _ => .ok []
  | d :: ds, wit => do
    let wit := if wit.isEmpty then worksheet else wit
    match wit with
    | [] => .ok (d :: ds)
    | w :: wit => return (← domainIntersect d w) :: (← intersectCycle worksheet ds wit)

def andMerge (domains worksheet : Domains) : Except Err Domains := do
  if domains.isEmpty then return worksheet
  if worksheet.isEmpty then return []
  let expanded := domains.flatMap fun d => List.replicate worksheet.length d
  return (← intersectCycle worksheet expanded worksheet).filter (· ≠ domainCtorNull)

variable {C : Type} [DecidableEq C] (conds : C → Condition) (order : List C)

/-- The domain of a chain that ends in a literal: each of its conditions is set to the index of
the literal. -/
def literalDomain (str : String) : List (C × ArgT) → Domain → Option Domain
  | [], domain => some domain
  | (c, a) :: rest, domain =>
    let idx := (conds c).hitmap.findArg str a
    if idx = dNil then none
    else literalDomain str rest (domain.set (order.idxOf c) (condDomainCtor idx a))

/-- The domain of a chain for one name of its first condition: each of the others is intersected
with the index of the name. -/
def chainDomain (name : String) : List (C × ArgT) → Domain → Option Domain
  | [], domain => some domain
  | (c, a) :: rest, domain =>
    let idx := (conds c).hitmap.findArg name a
    if idx = dNil then none
    else
      let i := order.idxOf c
      let d := condDomainIntersect (domain.at i) (condDomainCtor idx a)
      if condDomainIsNull d then none else chainDomain name rest (domain.set i d)

/-- The worksheet of a chain. -/
def chainWorksheet (args : List (C × ArgT)) (str : String) : Except Err Domains :=
  match args with
  | [] =>
    .error (.runtime (if str.isEmpty then "no cond in cond list of ma_domain_cond"
      else "cond_arg_list cannot be empty"))
  | (c₁, a₁) :: rest =>
    let any := domainCtorAny order.length
    if !str.isEmpty then .ok (literalDomain conds order str args any).toList
    else
      .ok (((conds c₁).hitmap.args a₁).entries.filterMap fun e =>
        let i := order.idxOf c₁
        chainDomain conds order e.1 rest
          (any.set i (condDomainIntersect (any.at i) (condDomainCtor e.2 a₁))))

mutual

/-- Evaluate a domain condition and merge the result with the domains passed in. -/
def evaluate : DomainCond C → Domains → Except Err Domains
  | .expr e, domains => do andMerge domains (← evaluateOr e [])
  | .chain args str, domains => do andMerge domains (← chainWorksheet conds order args str)

/-- The domains of an and-expression, from the domains of the conditions before. -/
def evaluateAnd : List (DomainCond C) → Domains → Except Err Domains
  | [], mydomains => .ok mydomains
  | b :: bs, mydomains => do
    let mydomains ← b.evaluate mydomains
    if mydomains.isEmpty then return [] else evaluateAnd bs mydomains

/-- Append the domains of each and-expression. -/
def evaluateOr : List (List (DomainCond C)) → Domains → Except Err Domains
  | [], domains => .ok domains
  | a :: as, domains => do evaluateOr as (domains ++ (← evaluateAnd a []))

end

omit [DecidableEq C] in
mutual

/-- The sources and targets an expression names. -/
def args : DomainCond C → List (C × ArgT)
  | .expr e => argsOr e
  | .chain as _ => as

def argsAnd : List (DomainCond C) → List (C × ArgT)
  | [] => []
  | b :: bs => b.args ++ argsAnd bs

def argsOr : List (List (DomainCond C)) → List (C × ArgT)
  | [] => []
  | a :: as => argsAnd a ++ argsOr as

end

omit [DecidableEq C] in
mutual

/-- What the grammar makes: an and-expression has a condition, a chain has an argument, and an
argument is a source or a target. -/
def grammatical : DomainCond C → Bool
  | .expr e => grammaticalOr e
  | .chain as _ => !as.isEmpty && as.all fun p => p.2 = .source || p.2 = .target

def grammaticalAnd : List (DomainCond C) → Bool
  | [] => true
  | b :: bs => b.grammatical && grammaticalAnd bs

def grammaticalOr : List (List (DomainCond C)) → Bool
  | [] => true
  | a :: as => !a.isEmpty && grammaticalAnd a && grammaticalOr as

end

end DomainCond

namespace DomainExpr

variable {C : Type}

abbrev evaluate [DecidableEq C] (conds : C → Condition) (order : List C) (e : DomainExpr C)
    (domains : Domains) : Except Err Domains := DomainCond.evaluateOr conds order e domains

abbrev args (e : DomainExpr C) : List (C × ArgT) := DomainCond.argsOr e

abbrev grammatical (e : DomainExpr C) : Bool := DomainCond.grammaticalOr e

end DomainExpr

end MfExtensions
