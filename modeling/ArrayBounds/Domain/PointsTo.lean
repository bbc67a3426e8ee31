import ArrayBounds.Code.Method
import ArrayBounds.Fact.Basic

/-!
# The points-to domain

Facts about array variables are sets of allocation sites and `null`.  The sites of a run are the
statements that store a new array in a tracked local; an assignment of any other value that is
neither a tracked local nor `null` leaves the targets as they are.
-/

namespace ArrayBounds

/-- The sites of a method: each with the place of its statement, in order. -/
abbrev SiteMap := List (Nat × Site)

namespace SiteMap

/-- The label of the `n`-th site. -/
def label (n : Nat) : String := "new" ++ twoDigits n

/-- The sites of a method, labelled in the order of their statements. -/
def ofMethod (m : Method) : SiteMap :=
  m.allocations.zipIdx.map (fun (place, n) => (place, ⟨place, label n⟩))

/-- Marks the statement at a place as a site.  A place that is marked already keeps its rank in the
order. -/
def insert (s : SiteMap) (place : Nat) (site : Site) : SiteMap :=
  if s.any (·.1 = place) then s.map (fun e => if e.1 = place then (place, site) else e)
  else s ++ [(place, site)]

/-- The sites in ascending order. -/
def sites (s : SiteMap) : List Site := Site.ofList (s.map (·.2))

end SiteMap

/-- The points-to domain over a list of array variables. -/
structure PointsToDomain where
  names : List String
  sites : SiteMap
deriving Repr

namespace PointsToDomain

/-- All sites of a run. -/
def allSites (d : PointsToDomain) : List Site := d.sites.sites

/-- A domain in one line. -/
def text (d : PointsToDomain) : String :=
  s!"PointsToDomain({d.names.length} vars, sites=[" ++
    ", ".intercalate (d.allSites.map (·.label)) ++ "])"

/-- The state with these entries over the sites of the run. -/
def make (d : PointsToDomain) (es : List (String × TargetSet)) : Except Fault Fact :=
  .pointsTo <$> PointsToState.ofEntries es d.allSites

/-- The state on entry: every array variable is `null`. -/
def nullState (d : PointsToDomain) : Except Fault Fact :=
  d.make (d.names.eraseDups.map (·, [.null]))

/-- What holds if one of two facts does. -/
def join (a b : Fact) : Except Fault Fact :=
  match a, b with
  | .bottom, _ => .ok b
  | _, .bottom => .ok a
  | .pointsTo s, .pointsTo t =>
    if s.sites ≠ t.sites then .error (.state .pointsToSites)
    else if s.names ≠ t.names then
      .error (.state (.pointsToVariables s.names t.names))
    else
      .pointsTo <$> PointsToState.ofEntries
        ((s.items.zip t.items).map (fun ((n, x), (_, y)) => (n, x.union y))) s.sites
  | _, _ => do .error (.state (.pointsToJoin (← a.text) (← b.text)))

/-- The targets that an assignment at a place gives, or nothing if it leaves them alone. -/
def image (d : PointsToDomain) (s : PointsToState) (place : Option Nat) (value : Value) :
    Option TargetSet :=
  let created : Option TargetSet := do
    let site ← d.sites.lookup (← place)
    return [.site site]
  match value with
  | .local name _ => if s.has name then s.get? name else created
  | .null => some [.null]
  | _ => created

/-- The variable with an entry that an operand is. -/
def tracked? (s : PointsToState) : Value → Option String
  | .local name _ => if s.has name then some name else none
  | _ => none

/-- The effect of comparing a variable with `null`; `equal` tells how the comparison went. -/
def assumeNull (d : PointsToDomain) (s : PointsToState) (name : String) (ts : TargetSet)
    (equal : Bool) : Except Fault Fact :=
  if equal then
    if ts.contains .null then d.make (PointsToState.update s.items name [.null]) else .ok .bottom
  else if !ts.contains .null then .ok (.pointsTo s)
  else if ts.length = 1 then .ok .bottom
  else d.make (PointsToState.update s.items name ts.withoutNull)

/-- The effect of comparing two variables; `equal` tells how the comparison went. -/
def assumePair (d : PointsToDomain) (s : PointsToState) (x y : String) (xs ys : TargetSet)
    (equal : Bool) : Except Fault Fact :=
  if equal then
    let common := xs.inter ys
    if common.isEmpty then .ok .bottom
    else d.make (PointsToState.update (PointsToState.update s.items x common) y common)
  else if xs = [.null] && ys = [.null] then .ok .bottom
  else if xs = [.null] && ys.contains .null then
    d.make (PointsToState.update s.items y ys.withoutNull)
  else if ys = [.null] && xs.contains .null then
    d.make (PointsToState.update s.items x xs.withoutNull)
  else .ok (.pointsTo s)

/-- The effect of knowing how a comparison for equality went. -/
def assume (d : PointsToDomain) (s : PointsToState) (x y : Value) (equal : Bool) :
    Except Fault Fact :=
  match tracked? s x, tracked? s y, x, y with
  | some u, some v, _, _ =>
    match s.get? u, s.get? v with
    | some xs, some ys => d.assumePair s u v xs ys equal
    | _, _ => .ok (.pointsTo s)
  | some u, none, _, .null => d.assumeNull s u ((s.get? u).getD []) equal
  | none, some v, .null, _ => d.assumeNull s v ((s.get? v).getD []) equal
  | _, _, _, _ => .ok (.pointsTo s)

/-- The effect of the statement at a place on a state; `taken` tells the two edges of a conditional
jump apart. -/
def step (d : PointsToDomain) (s : PointsToState) (place : Option Nat) (stmt : Stmt)
    (taken : Bool) : Except Fault Fact :=
  match stmt with
  | .assign (.local name _) value =>
    if s.has name then
      match d.image s place value with
      | some ts => d.make (PointsToState.update s.items name ts)
      | none => .ok (.pointsTo s)
    else .ok (.pointsTo s)
  | .branch (.binary .eq x y) _ => d.assume s x y taken
  | .branch (.binary .ne x y) _ => d.assume s x y (!taken)
  | .branch (.binary _ _ _) _ => .ok (.pointsTo s)
  | .branch (.neg _) _ => .ok (.pointsTo s)
  | .branch (.cast _ _) _ => .ok (.pointsTo s)
  | .branch _ _ => .error .noOperator
  | _ => .ok (.pointsTo s)

/-- The effect of the statement at a place on a fact. -/
def transfer (d : PointsToDomain) (a : Fact) (place : Option Nat) (stmt : Stmt) (taken : Bool) :
    Except Fault Fact :=
  match a with
  | .bottom => .ok .bottom
  | .pointsTo s => d.step s place stmt taken
  | _ => do .error (.state (.pointsToTransfer (← a.text)))

end PointsToDomain

end ArrayBounds
