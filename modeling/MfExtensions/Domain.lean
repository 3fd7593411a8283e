import MfExtensions.Types

/-!
# Operations on domains

The constructors and the intersections of `ma_domain_ops.h`.
-/

namespace MfExtensions

def condDomainCtorNull : CondDomain := (dNil, dNil)

def condDomainCtorAny : CondDomain := (dAny, dAny)

/-- `ma_cond_domain_ctor(i, t)`: `(i, *)` for a source, else `(*, i)`. -/
def condDomainCtor (i : ℤ) (t : ArgT) : CondDomain :=
  if t = .source then (i, dAny) else (dAny, i)

/-- `ma_domain_ctor_null()`: the null domain of one condition. -/
def domainCtorNull : Domain := [condDomainCtorNull]

def domainCtorNullOf (size : ℕ) : Domain := List.replicate size condDomainCtorNull

def domainCtorAny (size : ℕ) : Domain := List.replicate size condDomainCtorAny

/-- `domain[i]`. -/
def Domain.at (d : Domain) (i : ℕ) : CondDomain := d.getD i condDomainCtorNull

def andOp (i j : ℤ) : ℤ :=
  if i = dNil ∨ j = dNil then dNil
  else if i = j then i
  else if i = dAny then j
  else if j = dAny then i
  else dNil

def condDomainIsNull (d : CondDomain) : Bool := d.1 = dNil || d.2 = dNil

def domainIsNull (d : Domain) : Bool := d.isEmpty || d.any condDomainIsNull

/-- `domain_intersect` of two condition domains. -/
def condDomainIntersect (d₁ d₂ : CondDomain) : CondDomain :=
  let d := (andOp d₁.1 d₂.1, andOp d₁.2 d₂.2)
  if condDomainIsNull d then condDomainCtorNull else d

/-- `domain_intersect` of two domains. -/
def domainIntersect (d₁ d₂ : Domain) : Except Err Domain :=
  if domainIsNull d₁ || domainIsNull d₂ then .ok domainCtorNull
  else if d₁.length ≠ d₂.length then
    .error (.runtime "domain size incomparable while doing domain_intersect")
  else
    let d := List.zipWith condDomainIntersect d₁ d₂
    .ok (if d.any condDomainIsNull then domainCtorNull else d)

end MfExtensions
