/-! Terms and formulas over the whole numbers. -/

namespace WhileSketch

mutual

inductive Term where
  | var (name : String)
  | lit (n : Int)
  | add (a b : Term)
  | sub (a b : Term)
  | mul (a b : Term)
  | ite (c : Formula) (a b : Term)

inductive Formula where
  | lit (b : Bool)
  | all (fs : List Formula)
  | any (fs : List Formula)
  | not (f : Formula)
  | implies (f g : Formula)
  | eq (a b : Term)
  | ne (a b : Term)
  | lt (a b : Term)
  | le (a b : Term)
  | gt (a b : Term)
  | ge (a b : Term)
  | same (f g : Formula)
  | differ (f g : Formula)
  | forAll (names : List String) (body : Formula)

end

instance : Inhabited Term := ⟨.lit 0⟩

instance : Inhabited Formula := ⟨.lit true⟩

mutual

def Term.render : Term → String
  | .var name => name
  | .lit n => toString n
  | .add a b => "(+ " ++ a.render ++ " " ++ b.render ++ ")"
  | .sub a b => "(- " ++ a.render ++ " " ++ b.render ++ ")"
  | .mul a b => "(* " ++ a.render ++ " " ++ b.render ++ ")"
  | .ite c a b => "(ite " ++ c.render ++ " " ++ a.render ++ " " ++ b.render ++ ")"

def Formula.render : Formula → String
  | .lit b => toString b
  | .all fs => "(and" ++ Formula.renderEach fs ++ ")"
  | .any fs => "(or" ++ Formula.renderEach fs ++ ")"
  | .not f => "(not " ++ f.render ++ ")"
  | .implies f g => "(=> " ++ f.render ++ " " ++ g.render ++ ")"
  | .eq a b => "(= " ++ a.render ++ " " ++ b.render ++ ")"
  | .ne a b => "(distinct " ++ a.render ++ " " ++ b.render ++ ")"
  | .lt a b => "(< " ++ a.render ++ " " ++ b.render ++ ")"
  | .le a b => "(<= " ++ a.render ++ " " ++ b.render ++ ")"
  | .gt a b => "(> " ++ a.render ++ " " ++ b.render ++ ")"
  | .ge a b => "(>= " ++ a.render ++ " " ++ b.render ++ ")"
  | .same f g => "(= " ++ f.render ++ " " ++ g.render ++ ")"
  | .differ f g => "(distinct " ++ f.render ++ " " ++ g.render ++ ")"
  | .forAll names body =>
    "(forall (" ++ " ".intercalate names ++ ") " ++ body.render ++ ")"

def Formula.renderEach : List Formula → String
  | [] => ""
  | f :: fs => " " ++ f.render ++ Formula.renderEach fs

end

mutual

def Term.value (m : String → Int) : Term → Int
  | .var name => m name
  | .lit n => n
  | .add a b => a.value m + b.value m
  | .sub a b => a.value m - b.value m
  | .mul a b => a.value m * b.value m
  | .ite c a b => if c.test m then a.value m else b.value m

/-- Whether a formula is true when variables have the given values. Formulas about all values of
some variables cannot be tested and count as false. -/
def Formula.test (m : String → Int) : Formula → Bool
  | .lit b => b
  | .all fs => Formula.testAll m fs
  | .any fs => Formula.testAny m fs
  | .not f => !f.test m
  | .implies f g => !f.test m || g.test m
  | .eq a b => a.value m == b.value m
  | .ne a b => a.value m != b.value m
  | .lt a b => a.value m < b.value m
  | .le a b => a.value m ≤ b.value m
  | .gt a b => a.value m > b.value m
  | .ge a b => a.value m ≥ b.value m
  | .same f g => f.test m == g.test m
  | .differ f g => f.test m != g.test m
  | .forAll _ _ => false

def Formula.testAll (m : String → Int) : List Formula → Bool
  | [] => true
  | f :: fs => f.test m && Formula.testAll m fs

def Formula.testAny (m : String → Int) : List Formula → Bool
  | [] => false
  | f :: fs => f.test m || Formula.testAny m fs

end

mutual

def Term.addVars (seen : List String) : Term → List String
  | .var name => if seen.contains name then seen else name :: seen
  | .lit _ => seen
  | .add a b => b.addVars (a.addVars seen)
  | .sub a b => b.addVars (a.addVars seen)
  | .mul a b => b.addVars (a.addVars seen)
  | .ite c a b => b.addVars (a.addVars (c.addVars seen))

/-- Adds the variables of a formula to a list, each once. Those that stand for all their values do
not count. -/
def Formula.addVars (seen : List String) : Formula → List String
  | .lit _ => seen
  | .all fs => Formula.addVarsEach seen fs
  | .any fs => Formula.addVarsEach seen fs
  | .not f => f.addVars seen
  | .implies f g => g.addVars (f.addVars seen)
  | .eq a b => b.addVars (a.addVars seen)
  | .ne a b => b.addVars (a.addVars seen)
  | .lt a b => b.addVars (a.addVars seen)
  | .le a b => b.addVars (a.addVars seen)
  | .gt a b => b.addVars (a.addVars seen)
  | .ge a b => b.addVars (a.addVars seen)
  | .same f g => g.addVars (f.addVars seen)
  | .differ f g => g.addVars (f.addVars seen)
  | .forAll names body =>
    ((body.addVars []).filter fun n => !names.contains n && !seen.contains n) ++ seen

def Formula.addVarsEach (seen : List String) : List Formula → List String
  | [] => seen
  | f :: fs => Formula.addVarsEach (f.addVars seen) fs

end

def Formula.vars (f : Formula) : List String :=
  f.addVars []

mutual

def Term.isQuantified : Term → Bool
  | .var _ => false
  | .lit _ => false
  | .add a b => a.isQuantified || b.isQuantified
  | .sub a b => a.isQuantified || b.isQuantified
  | .mul a b => a.isQuantified || b.isQuantified
  | .ite c a b => c.isQuantified || a.isQuantified || b.isQuantified

def Formula.isQuantified : Formula → Bool
  | .lit _ => false
  | .all fs => Formula.anyQuantified fs
  | .any fs => Formula.anyQuantified fs
  | .not f => f.isQuantified
  | .implies f g => f.isQuantified || g.isQuantified
  | .eq a b => a.isQuantified || b.isQuantified
  | .ne a b => a.isQuantified || b.isQuantified
  | .lt a b => a.isQuantified || b.isQuantified
  | .le a b => a.isQuantified || b.isQuantified
  | .gt a b => a.isQuantified || b.isQuantified
  | .ge a b => a.isQuantified || b.isQuantified
  | .same f g => f.isQuantified || g.isQuantified
  | .differ f g => f.isQuantified || g.isQuantified
  | .forAll _ _ => true

def Formula.anyQuantified : List Formula → Bool
  | [] => false
  | f :: fs => f.isQuantified || Formula.anyQuantified fs

end

end WhileSketch
