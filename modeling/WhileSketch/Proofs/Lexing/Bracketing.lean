import Mathlib
import WhileSketch.Lexing.Token

/-! Blocks of a row of tokens. A row has trees if it closes as many brackets as it opens, in whichever
order, and these trees, written with an opening and a closing bracket around each block, are the row
itself just if no bracket is closed before it is opened. -/

namespace WhileSketch.Lexing.Brackets

variable {b : Brackets} {t : String} {ts inner rest : List String} {k : Int}

section Balance

/-- The number of brackets that a row opens and does not close, which is negative where it closes
more than it opens. -/
def balance (b : Brackets) (ts : List String) : Int :=
  (ts.map b.weight).sum

@[simp] theorem balance_nil : b.balance [] = 0 :=
  rfl

@[simp] theorem balance_cons : b.balance (t :: ts) = b.weight t + b.balance ts := by
  simp [balance]

@[simp] theorem balance_append (ts us : List String) :
    b.balance (ts ++ us) = b.balance ts + b.balance us := by
  simp [balance]

@[simp] theorem weight_opening : b.weight b.opening = 1 := by
  simp [weight]

theorem weight_closing (hb : b.opening ≠ b.closing) : b.weight b.closing = -1 := by
  simp [weight, hb.symm]

theorem weight_cases (b : Brackets) (t : String) :
    b.weight t = 0 ∨ t = b.opening ∨ t = b.closing := by
  rw [weight]
  split_ifs with ho hc
  · exact .inr (.inl ho)
  · exact .inr (.inr hc)
  · exact .inl rfl

theorem weight_eq_zero_iff : b.weight t = 0 ↔ t ≠ b.opening ∧ t ≠ b.closing := by
  rw [weight]
  split_ifs <;> simp_all

theorem balance_eq_count_sub (hb : b.opening ≠ b.closing) (ts : List String) :
    b.balance ts = ts.count b.opening - ts.count b.closing := by
  induction ts with
  | nil => rfl
  | cons t ts ih =>
    rw [balance_cons, ih, weight, List.count_cons, List.count_cons]
    split_ifs <;> simp_all <;> omega

theorem balance_eq_zero_iff (hb : b.opening ≠ b.closing) :
    b.balance ts = 0 ↔ ts.count b.opening = ts.count b.closing := by
  rw [balance_eq_count_sub hb]
  omega

/-- With some number of brackets open in front of it, a row closes none that is not open. -/
def Stays (b : Brackets) (k : Int) (ts : List String) : Prop :=
  ∀ us, us <+: ts → 0 ≤ k + b.balance us

@[simp] theorem stays_nil : b.Stays k [] ↔ 0 ≤ k := by
  simp [Stays, List.prefix_nil]

@[simp] theorem stays_cons : b.Stays k (t :: ts) ↔ 0 ≤ k ∧ b.Stays (k + b.weight t) ts := by
  constructor
  · intro h
    refine ⟨by simpa using h [] List.nil_prefix, fun us hus => ?_⟩
    simpa [add_assoc] using h (t :: us) (List.cons_prefix_cons.mpr ⟨rfl, hus⟩)
  · rintro ⟨hk, h⟩ us hus
    obtain rfl | ⟨us, rfl, hrest⟩ := List.prefix_cons_iff.mp hus
    · simpa using hk
    · simpa [add_assoc] using h us hrest

theorem stays_append (us : List String) :
    b.Stays k (ts ++ us) ↔ b.Stays k ts ∧ b.Stays (k + b.balance ts) us := by
  induction ts generalizing k with
  | nil =>
    have hfirst : b.Stays k us → 0 ≤ k := fun h => by simpa using h [] List.nil_prefix
    simpa using hfirst
  | cons t ts ih => simp [ih, add_assoc, and_assoc]

/-- Each bracket is opened before it is closed: no row of first tokens closes more brackets than it
opens, and all tokens close as many as they open. -/
structure IsBalanced (b : Brackets) (ts : List String) : Prop where
  prefixes : ∀ us, us <+: ts → us.count b.closing ≤ us.count b.opening
  total : ts.count b.opening = ts.count b.closing

theorem isBalanced_iff (hb : b.opening ≠ b.closing) :
    b.IsBalanced ts ↔ b.Stays 0 ts ∧ b.balance ts = 0 := by
  simp only [Stays, balance_eq_count_sub hb]
  constructor
  · intro h
    exact ⟨fun us hus => by have := h.prefixes us hus; omega, by have := h.total; omega⟩
  · intro h
    exact ⟨fun us hus => by have := h.1 us hus; omega, by have := h.2; omega⟩

theorem isBalanced_cons_iff (hb : b.opening ≠ b.closing) (ht : b.weight t = 0) :
    b.IsBalanced (t :: ts) ↔ b.IsBalanced ts := by
  simp [isBalanced_iff hb, ht]

theorem isBalanced_block_iff (hb : b.opening ≠ b.closing) (hinner : b.IsBalanced inner) :
    b.IsBalanced (b.opening :: (inner ++ b.closing :: rest)) ↔ b.IsBalanced rest := by
  obtain ⟨hstays, hzero⟩ := (isBalanced_iff hb).mp hinner
  have hopen : b.Stays 1 inner := fun us hus => by have := hstays us hus; omega
  simp [isBalanced_iff hb, stays_append, hopen, hzero, weight_closing hb]

theorem not_isBalanced_of_closing (hb : b.opening ≠ b.closing) : ¬ b.IsBalanced (b.closing :: ts) := by
  intro h
  have hfirst := h.prefixes [b.closing] (by simp)
  simp [hb.symm] at hfirst

end Balance

section Distance

def turned (b : Brackets) : Brackets :=
  ⟨b.closing, b.opening⟩

theorem weight_turned (hb : b.opening ≠ b.closing) (t : String) : b.turned.weight t = -b.weight t := by
  rw [weight, weight, turned]
  split_ifs <;> simp_all

theorem closingDistance_turned (hb : b.opening ≠ b.closing) (k : Int) (ts : List String) :
    b.turned.closingDistance (-k) ts = b.closingDistance k ts := by
  induction ts generalizing k with
  | nil => simp [closingDistance]
  | cons t ts ih =>
    have hsum : -k + b.turned.weight t = -(k + b.weight t) := by
      rw [weight_turned hb]
      omega
    rw [closingDistance, closingDistance, hsum, ih]
    simp

theorem exists_closingDistance (h : k + b.balance ts = 0) : ∃ n, b.closingDistance k ts = some n := by
  induction ts generalizing k with
  | nil => exact ⟨0, by simpa [closingDistance] using h⟩
  | cons t ts ih =>
    rw [closingDistance]
    split_ifs
    · exact ⟨0, rfl⟩
    · obtain ⟨n, hn⟩ := ih (k := k + b.weight t) (by rw [← h, balance_cons, add_assoc])
      exact ⟨n + 1, by rw [hn]; rfl⟩

/-- With brackets open, the distance ends with a closing bracket, and the tokens before it leave just
one bracket open. -/
theorem exists_inner (hb : b.opening ≠ b.closing) {n : Nat} (hk : 0 < k)
    (h : b.closingDistance k ts = some n) :
    ∃ inner rest, ts = inner ++ b.closing :: rest ∧ n = inner.length + 1 ∧
      b.Stays (k - 1) inner ∧ k + b.balance inner = 1 := by
  induction ts generalizing k n with
  | nil =>
    rw [closingDistance, if_neg hk.ne'] at h
    cases h
  | cons t ts ih =>
    rw [closingDistance, if_neg hk.ne'] at h
    obtain ⟨m, hm, rfl⟩ := Option.map_eq_some_iff.mp h
    by_cases hlast : k = 1 ∧ t = b.closing
    · obtain ⟨rfl, rfl⟩ := hlast
      have hm : m = 0 := by
        rw [weight_closing hb] at hm
        cases ts <;> simpa [closingDistance, eq_comm] using hm
      exact ⟨[], ts, rfl, by simp [hm], by simp, by simp⟩
    · have hpos : 0 < k + b.weight t := by
        rw [weight]
        split_ifs with ho hc
        · omega
        · have : k ≠ 1 := fun hk => hlast ⟨hk, hc⟩
          omega
        · omega
      obtain ⟨inner, rest, rfl, rfl, hstays, hone⟩ := ih hpos hm
      refine ⟨t :: inner, rest, rfl, rfl, ?_, ?_⟩
      · rw [stays_cons]
        refine ⟨by omega, ?_⟩
        rwa [sub_add_eq_add_sub]
      · rw [balance_cons, ← add_assoc, hone]

/-- A row stands between the two brackets of a block: an opening bracket and the one that closes it, or
a closing bracket and the one that opens it again. -/
def Encloses (b : Brackets) (t : String) (inner : List String) (c : String) : Prop :=
  (t = b.opening ∧ c = b.closing ∧ b.IsBalanced inner) ∨
    (t = b.closing ∧ c = b.opening ∧ b.turned.IsBalanced inner)

theorem Encloses.balance_inner (hb : b.opening ≠ b.closing) {c : String} (h : b.Encloses t inner c) :
    b.balance inner = 0 := by
  rw [balance_eq_zero_iff hb]
  obtain ⟨-, -, hinner⟩ | ⟨-, -, hinner⟩ := h
  · exact hinner.total
  · exact hinner.total.symm

theorem Encloses.weight_add (hb : b.opening ≠ b.closing) {c : String} (h : b.Encloses t inner c) :
    b.weight t + b.weight c = 0 := by
  obtain ⟨rfl, rfl, -⟩ | ⟨rfl, rfl, -⟩ := h <;> simp [weight_closing hb]

theorem exists_isBalanced (hb : b.opening ≠ b.closing) {n : Nat}
    (h : b.closingDistance (b.weight b.opening) ts = some n) :
    ∃ inner rest, ts = inner ++ b.closing :: rest ∧ n = inner.length + 1 ∧ b.IsBalanced inner := by
  rw [weight_opening] at h
  obtain ⟨inner, rest, hts, hn, hstays, hone⟩ := exists_inner hb one_pos h
  exact ⟨inner, rest, hts, hn, (isBalanced_iff hb).mpr ⟨by simpa using hstays, by omega⟩⟩

/-- The distance from a bracket is that to the other bracket of its block. -/
theorem exists_encloses (hb : b.opening ≠ b.closing) {n : Nat} (ht : b.weight t ≠ 0)
    (h : b.closingDistance (b.weight t) ts = some n) :
    ∃ inner c rest, ts = inner ++ c :: rest ∧ n = inner.length + 1 ∧ b.Encloses t inner c := by
  obtain hzero | rfl | rfl := b.weight_cases t
  · exact absurd hzero ht
  · obtain ⟨inner, rest, hts, hn, hinner⟩ := exists_isBalanced hb h
    exact ⟨inner, _, rest, hts, hn, .inl ⟨rfl, rfl, hinner⟩⟩
  · rw [← closingDistance_turned hb, ← weight_turned hb] at h
    obtain ⟨inner, rest, hts, hn, hinner⟩ := exists_isBalanced (b := b.turned) hb.symm h
    exact ⟨inner, _, rest, hts, hn, .inr ⟨rfl, rfl, hinner⟩⟩

end Distance

section Trees

/-- The rows of tokens that have trees, with their trees. -/
inductive Blocked (b : Brackets) : List String → List (Tree Label) → Prop
  | nil : Blocked b [] []
  | leaf {t ts us} : b.weight t = 0 → Blocked b ts us → Blocked b (t :: ts) (Tree.word t [] :: us)
  | block {t inner c rest vs us} : b.Encloses t inner c → Blocked b inner vs → Blocked b rest us →
    Blocked b (t :: (inner ++ c :: rest)) (Tree.word c vs :: us)

theorem blocks_cons {c : String}
    (h : b.closingDistance (b.weight t) (inner ++ c :: rest) = some (inner.length + 1)) :
    b.blocks (t :: (inner ++ c :: rest)) = do
      let vs ← b.blocks inner
      let us ← b.blocks rest
      return Tree.word c vs :: us := by
  have htake : (inner ++ c :: rest).take (inner.length + 1) = inner ++ [c] := by
    simp [List.take_append]
  have hdrop : (inner ++ c :: rest).drop (inner.length + 1) = rest := by
    simp [List.drop_append]
  rw [blocks, h]
  simp only [htake, hdrop, List.dropLast_concat, List.getLastD_cons, List.getLastD_concat]

theorem blocks_leaf (ht : b.weight t = 0) :
    b.blocks (t :: ts) = do
      let us ← b.blocks ts
      return Tree.word t [] :: us := by
  have hzero : b.closingDistance (b.weight t) ts = some 0 := by
    cases ts <;> simp [closingDistance, ht]
  rw [blocks, hzero]
  simp only [List.take_zero, List.dropLast_nil, List.drop_zero, List.getLastD_cons,
    List.getLastD_nil]
  rw [blocks]
  rfl

/-- A row that closes as many brackets as it opens has trees. -/
theorem exists_blocked (hb : b.opening ≠ b.closing) (h : b.balance ts = 0) :
    ∃ us, b.blocks ts = .ok us ∧ b.Blocked ts us := by
  induction hn : ts.length using Nat.strong_induction_on generalizing ts with
  | _ n ih =>
    cases ts with
    | nil => exact ⟨[], by rw [blocks], .nil⟩
    | cons t ts =>
      rw [balance_cons] at h
      obtain ⟨m, hm⟩ := exists_closingDistance h
      by_cases ht : b.weight t = 0
      · obtain ⟨us, hus, hbehind⟩ := ih ts.length (by simp [← hn]) (by omega) rfl
        exact ⟨_, by rw [blocks_leaf ht, hus]; rfl, .leaf ht hbehind⟩
      · obtain ⟨inner, c, rest, rfl, rfl, hblock⟩ := exists_encloses hb ht hm
        have hinner := hblock.balance_inner hb
        have hpair := hblock.weight_add hb
        rw [balance_append, balance_cons] at h
        rw [List.length_cons, List.length_append, List.length_cons] at hn
        obtain ⟨vs, hvs, hinside⟩ := ih inner.length (by omega) hinner rfl
        obtain ⟨us, hus, hbehind⟩ := ih rest.length (by omega) (by omega) rfl
        exact ⟨_, by rw [blocks_cons hm, hvs, hus]; rfl, .block hblock hinside hbehind⟩

theorem blocks_eq_error (hb : b.opening ≠ b.closing) (h : b.balance ts ≠ 0) :
    b.blocks ts = .error (.unbalanced b.opening b.closing) := by
  induction hn : ts.length using Nat.strong_induction_on generalizing ts with
  | _ n ih =>
    cases ts with
    | nil => exact absurd rfl h
    | cons t ts =>
      rw [balance_cons] at h
      cases hm : b.closingDistance (b.weight t) ts with
      | none => rw [blocks, hm]
      | some m =>
        by_cases ht : b.weight t = 0
        · rw [blocks_leaf ht, ih ts.length (by simp [← hn]) (by omega) rfl]
          rfl
        · obtain ⟨inner, c, rest, rfl, rfl, hblock⟩ := exists_encloses hb ht hm
          have hinner := hblock.balance_inner hb
          have hpair := hblock.weight_add hb
          obtain ⟨vs, hvs, -⟩ := exists_blocked hb hinner
          rw [balance_append, balance_cons] at h
          rw [List.length_cons, List.length_append, List.length_cons] at hn
          rw [blocks_cons hm, hvs, ih rest.length (by omega) (by omega) rfl]
          rfl

end Trees

section Writing

mutual

/-- The tokens of a tree, where `front` gives the bracket in front of the block that a token ends. A
tree whose token ends no block is that token. -/
def write (front : String → Option String) : Tree Label → List String
  | .node r ts =>
    match front r.plain with
    | some t => t :: (writeAll front ts ++ [r.plain])
    | none => [r.plain]

def writeAll (front : String → Option String) : List (Tree Label) → List String
  | [] => []
  | t :: ts => write front t ++ writeAll front ts

end

/-- A block that a closing bracket ends begins with an opening one. -/
def front (b : Brackets) (c : String) : Option String :=
  if c = b.closing then some b.opening else none

def otherBracket (b : Brackets) (c : String) : Option String :=
  if c = b.closing then some b.opening else if c = b.opening then some b.closing else none

theorem write_of_some {front : String → Option String} {c : String} (h : front c = some t)
    (vs : List (Tree Label)) : write front (Tree.word c vs) = t :: (writeAll front vs ++ [c]) := by
  simp [Tree.word, write, Label.plain, h]

theorem write_of_none {front : String → Option String} {c : String} (h : front c = none)
    (vs : List (Tree Label)) : write front (Tree.word c vs) = [c] := by
  simp [Tree.word, write, Label.plain, h]

theorem front_closing (b : Brackets) : b.front b.closing = some b.opening :=
  if_pos rfl

theorem front_eq_none {c : String} (h : c ≠ b.closing) : b.front c = none :=
  if_neg h

theorem otherBracket_of_encloses (hb : b.opening ≠ b.closing) {c : String}
    (h : b.Encloses t inner c) : b.otherBracket c = some t := by
  obtain ⟨rfl, rfl, -⟩ | ⟨rfl, rfl, -⟩ := h <;> simp [otherBracket, hb]

variable {us : List (Tree Label)}

theorem Blocked.writeAll_otherBracket (hb : b.opening ≠ b.closing) (h : b.Blocked ts us) :
    writeAll b.otherBracket us = ts := by
  induction h with
  | nil => rw [writeAll]
  | @leaf t ts us ht _ ih =>
    obtain ⟨ho, hc⟩ := weight_eq_zero_iff.mp ht
    rw [writeAll, write_of_none (by simp [otherBracket, ho, hc]), ih, List.singleton_append]
  | block hblock _ _ hinner hrest =>
    rw [writeAll, write_of_some (otherBracket_of_encloses hb hblock), hinner, hrest]
    simp

/-- With an opening bracket in front of each block that a closing one ends, the trees of a row are the
row just if each of its brackets is opened before it is closed. -/
theorem Blocked.writeAll_front_iff (hb : b.opening ≠ b.closing) (h : b.Blocked ts us) :
    writeAll b.front us = ts ↔ b.IsBalanced ts := by
  induction h with
  | nil => simp [writeAll, isBalanced_iff hb]
  | @leaf t ts us ht _ ih =>
    have hc := (weight_eq_zero_iff.mp ht).2
    rw [writeAll, write_of_none (front_eq_none hc), List.singleton_append, List.cons_inj_right, ih,
      isBalanced_cons_iff hb ht]
  | block hblock _ _ hinner hrest =>
    obtain ⟨rfl, rfl, hbalanced⟩ | ⟨rfl, rfl, -⟩ := hblock
    · rw [writeAll, write_of_some b.front_closing, hinner.mpr hbalanced,
        isBalanced_block_iff hb hbalanced, ← hrest]
      simp
    · rw [writeAll, write_of_none (front_eq_none hb)]
      simp [hb, not_isBalanced_of_closing hb]

end Writing

/-- A row of tokens has trees just if it closes as many brackets as it opens; it is an error
otherwise. The trees hold each token: with the two brackets of each block around it they are the row.
But a block may be one that a closing bracket begins and an opening one ends, and only if each bracket
is opened before it is closed there is no such block. -/
theorem blocks_error_iff (hb : b.opening ≠ b.closing) (tokens : List String) :
    (b.blocks tokens = .error (.unbalanced b.opening b.closing) ↔
      tokens.count b.opening ≠ tokens.count b.closing) ∧
    (tokens.count b.opening = tokens.count b.closing →
      ∃ trees, b.blocks tokens = .ok trees ∧ writeAll b.otherBracket trees = tokens ∧
        (writeAll b.front trees = tokens ↔ b.IsBalanced tokens)) := by
  have htrees : tokens.count b.opening = tokens.count b.closing →
      ∃ trees, b.blocks tokens = .ok trees ∧ b.Blocked tokens trees :=
    fun h => exists_blocked hb ((balance_eq_zero_iff hb).mpr h)
  refine ⟨⟨fun herror hcount => ?_, fun hcount => ?_⟩, fun hcount => ?_⟩
  · obtain ⟨trees, hok, -⟩ := htrees hcount
    cases hok.symm.trans herror
  · exact blocks_eq_error hb (mt (balance_eq_zero_iff hb).mp hcount)
  · obtain ⟨trees, hok, hblocked⟩ := htrees hcount
    exact ⟨trees, hok, hblocked.writeAll_otherBracket hb, hblocked.writeAll_front_iff hb⟩

def round : Brackets := ⟨"(", ")"⟩

theorem blocks_nested_row :
    round.opening ≠ round.closing ∧
      ["a", "(", "(", "b", ")", "c", ")", "d"].count round.opening =
        ["a", "(", "(", "b", ")", "c", ")", "d"].count round.closing ∧
      ∃ trees, round.blocks ["a", "(", "(", "b", ")", "c", ")", "d"] = .ok trees ∧
        writeAll round.front trees = ["a", "(", "(", "b", ")", "c", ")", "d"] := by
  have hb : round.opening ≠ round.closing := by decide
  have hbalanced : round.IsBalanced ["a", "(", "(", "b", ")", "c", ")", "d"] :=
    (isBalanced_iff hb).mpr (by simp [weight, round])
  refine ⟨hb, by decide, ?_⟩
  obtain ⟨trees, hok, -, hwrite⟩ := (blocks_error_iff hb _).2 hbalanced.total
  exact ⟨trees, hok, hwrite.mpr hbalanced⟩

/-- A row that closes a bracket and opens it again has a tree, which leaves out a token. -/
theorem blocks_turned_pair :
    ¬ round.IsBalanced [")", "("] ∧ round.blocks [")", "("] = .ok [Tree.word "(" []] ∧
      writeAll round.front [Tree.word "(" []] ≠ [")", "("] := by
  exact ⟨not_isBalanced_of_closing (b := round) (by decide), by cbv, by decide⟩

end WhileSketch.Lexing.Brackets
