import MfExtensions.DomainExpr

/-!
# The loops over domains

`ma_domain_ops.h` and `ma_domain_cond::and_merge` as they run: the intersections that update a
domain in place, the one that reads several domains by index, the union that starts again after an
erasure, and the expansion of a list while it is traversed.
-/

namespace MfExtensions

/-! ## `domain_intersect(d1, d2)` in place -/

/-- The loop over the entries of `d1` from `i` on, of which there are `n`. -/
def domainIntersectFrom (d₂ : Domain) : ℕ → ℕ → EStateM Err Domain Unit
  | 0, _ => pure ()
  | n + 1, i => do
    modify fun d₁ => d₁.set i (condDomainIntersect (d₁.at i) (d₂.at i))
    if condDomainIsNull ((← get).at i) then set domainCtorNull
    else domainIntersectFrom d₂ n (i + 1)

/-- `domain_intersect(d1, d2)`: the state is `d1`. -/
def domainIntersectInPlace (d₂ : Domain) : EStateM Err Domain Unit := do
  let d₁ ← get
  if domainIsNull d₁ || domainIsNull d₂ then set domainCtorNull
  else if d₁.length ≠ d₂.length then
    throw (.runtime "domain size incomparable while doing domain_intersect")
  else domainIntersectFrom d₂ d₁.length 0

def domainIntersectCopy (d₁ d₂ : Domain) : Except Err Domain :=
  match domainIntersectInPlace d₂ d₁ with
  | .ok _ d => .ok d
  | .error e _ => .error e

/-! ## `domain_intersect(ds)` -/

/-- The inner loop over the entries of the front from `i` on, of which there are `n`: the front
after it, and whether it left by the `goto`. Without a value, it reads past the end of a domain. -/
def intersectFront (d : Domain) : ℕ → ℕ → Domain → Option (Domain × Bool)
  | 0, _, front => some (front, false)
  | n + 1, i, front => do
    let x ← front[i]?
    let y ← d[i]?
    let x := condDomainIntersect x y
    if condDomainIsNull x then some (domainCtorNull, true)
    else intersectFront d n (i + 1) (front.set i x)

def intersectRest : Domains → Domain → Option Domain
  | [], front => some front
  | d :: ds, front => do
    let r ← intersectFront d front.length 0 front
    if r.2 then some r.1 else intersectRest ds r.1

/-- `domain_intersect` of a list of domains. -/
def domainsIntersect : Domains → Option Domain
  | [] => some domainCtorNull
  | front :: ds => intersectRest ds front

/-! ## `domain_union` -/

/-- Whether `a` contains `b`. -/
def containsOp (a b : ℤ) : Bool := a = b || a = dAny || b = dNil

inductive CompareResult
  | noCommon
  | equal
  | lContains
  | rContains
  deriving DecidableEq

def domainCompare (d₁ d₂ : CondDomain) : CompareResult :=
  if d₁.1 = d₂.1 ∧ d₁.2 = d₂.2 then .equal
  else
    let flag₁ := containsOp d₁.1 d₂.1
    let flag₂ := containsOp d₁.2 d₂.2
    if flag₁ ≠ flag₂ then .noCommon
    else if flag₁ then .lContains
    else .rContains

/-- What the loop of `domain_union` does to the list: return it, return it after erasing the element
at an index and starting again, or come to its end. -/
inductive UnionScan
  | found
  | erase (i : ℕ)
  | passed

/-- The loop of `domain_union` from the element at index `i` on. -/
def unionScan (newD : CondDomain) : List CondDomain → ℕ → UnionScan
  | [], _ => .passed
  | d :: ds, i =>
    match domainCompare d newD with
    | .equal => .found
    | .lContains => .found
    | .rContains => .erase i
    | .noCommon => unionScan newD ds (i + 1)

/-- `domain_union(ds, new_d)` with at most `fuel` calls. -/
def domainUnionFuel (newD : CondDomain) : ℕ → List CondDomain → Option (List CondDomain)
  | 0, _ => none
  | fuel + 1, ds =>
    if condDomainIsNull newD then some ds
    else
      match unionScan newD ds 0 with
      | .found => some ds
      | .erase i => domainUnionFuel newD fuel (ds.eraseIdx i)
      | .passed => some (ds ++ [newD])

/-- `domain_union(ds, new_d)`: each call but the last erases an element. -/
def domainUnion (ds : List CondDomain) (newD : CondDomain) : Option (List CondDomain) :=
  domainUnionFuel newD (ds.length + 1) ds

/-! ## `and_merge` in place -/

/-- `domains.insert(dit, n, *dit)` with `dit` at each element of the list in turn. The first list is
what stands before `dit`. -/
def insertCopies (n : ℕ) : Domains → Domains → Domains
  | before, [] => before
  | before, d :: after => insertCopies n (before ++ List.replicate n d ++ [d]) after

/-- The loop that intersects `*dit` with `*wit`: what stands before `dit`, the list from it, and the
worksheet from `wit`. -/
def intersectPairs (worksheet : Domains) : Domains → Domains → Domains → Except Err Domains
  | before, [], _ => .ok before
  | before, d :: after, wit =>
    match (if wit.isEmpty then worksheet else wit) with
    | [] => .ok (before ++ d :: after)
    | w :: wit =>
      match domainIntersectInPlace w d with
      | .ok _ d => intersectPairs worksheet (before ++ [d]) after wit
      | .error e _ => .error e

/-- `and_merge`: the list `domains` it leaves. -/
def andMergeInPlace (domains worksheet : Domains) : Except Err Domains := do
  if domains.isEmpty then return worksheet
  if worksheet.isEmpty then return []
  let expanded := insertCopies (worksheet.length - 1) [] domains
  return (← intersectPairs worksheet [] expanded worksheet).filter (· ≠ domainCtorNull)

end MfExtensions
