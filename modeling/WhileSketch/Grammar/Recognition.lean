import WhileSketch.Grammar.Chart

/-! Recognition of a sentence by a grammar, with one chart for every place between words. -/

namespace WhileSketch

def Grammar.topSymbol : String := "γ"

def Grammar.goal (g : Grammar) : Item :=
  ⟨⟨topSymbol, [g.start]⟩, 0, 0⟩

def Grammar.dottedRules (g : Grammar) : Nat :=
  g.rules.foldr (fun r n => r.length + 1 + n) 0

namespace Recognition

/-- The rules that read a word, one for each of its categories. -/
def lexical (w : Word) : List Rule :=
  w.tags.map fun tag => ⟨tag, [w.text]⟩

def scan (w : Word) (place : Nat) (c : Chart) : Chart :=
  (lexical w).foldl (fun c r => c.add (.fresh ⟨r, 1, place - 1⟩)) c

/-- Adds, for each row from an index on, the rules of the symbol it reads next. Rows added on the
way have their turn too. -/
def predictFrom (g : Grammar) (place : Nat) : Nat → Nat → Chart → Chart
  | 0, _, c => c
  | fuel + 1, i, c =>
    match c.rows[i]? with
    | none => c
    | some r =>
      let rules := match r.item.next? with
        | some symbol => g.rulesFor symbol
        | none => []
      predictFrom g place fuel (i + 1) (rules.foldl (fun c r => c.add (.fresh ⟨r, 0, place⟩)) c)

/-- Advances, from an index on, the rows that wait for the symbol that `done` has read. They are in
the chart where reading `done` began, which may be the one that grows. -/
def advanceFrom (charts : Array Chart) (place : Nat) (done : Row) :
    Nat → Nat → Chart → Chart
  | 0, _, c => c
  | fuel + 1, j, c =>
    let source := if done.item.start = place then c else charts.getD done.item.start .empty
    match source.rows[j]? with
    | none => c
    | some r =>
      let c := if r.item.next? == some done.item.rule.lhs then
          c.add (.advanced r.item.advance r done)
        else c
      advanceFrom charts place done fuel (j + 1) c

def completeFrom (charts : Array Chart) (place bound : Nat) : Nat → Nat → Chart → Chart
  | 0, _, c => c
  | fuel + 1, i, c =>
    match c.rows[i]? with
    | none => c
    | some r =>
      completeFrom charts place bound fuel (i + 1)
        (if r.item.isComplete then
          advanceFrom charts place r (bound + (charts.getD r.item.start .empty).size) 0 c
        else c)

/-- Predicts and completes in turn until the chart stops growing. -/
def saturate (g : Grammar) (charts : Array Chart) (place bound : Nat) : Nat → Chart → Chart
  | 0, c => c
  | fuel + 1, c =>
    let c' := completeFrom charts place bound bound 0 (predictFrom g place bound 0 c)
    if c'.size = c.size then c' else saturate g charts place bound fuel c'

/-- A number that exceeds the number of items that can be in the chart of a place. -/
def itemBound (g : Grammar) (tags place : Nat) : Nat :=
  (g.dottedRules + tags + 2) * (place + 1) + 1

/-- Appends the charts of the places in front of which the given words stand. -/
def read (g : Grammar) (charts : Array Chart) : List Word → Array Chart
  | [] => charts
  | w :: ws =>
    let place := charts.size
    let bound := itemBound g w.tags.length place
    read g (charts.push (saturate g charts place bound bound (scan w place .empty))) ws

def charts (g : Grammar) (s : Sentence) : Array Chart :=
  let bound := itemBound g 0 0
  read g #[saturate g #[] 0 bound bound (Chart.empty.add (.fresh g.goal))] s.words

def completeRows (charts : Array Chart) : List Row :=
  (charts.back?.getD .empty).rows.toList.filter fun r =>
    r.item.start == 0 && r.item.rule.lhs == Grammar.topSymbol && r.item.isComplete

def renderCharts (charts : Array Chart) : String :=
  "Parsing charts:\n" ++ String.join (charts.toList.zipIdx.map fun (c, i) =>
    "-----------" ++ toString i ++ "-------------\n" ++ c.render
      ++ "\n-------------------------\n")

end Recognition

end WhileSketch
