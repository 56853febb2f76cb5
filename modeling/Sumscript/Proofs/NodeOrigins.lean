import Sumscript.Proofs.ReplayedLog

/-! # Where the nodes of a tree come from

Replaying any log that gives a tree, even one that no match has written, neither loses nor
doubles a node. Each node of the tree was made by one action of the log, and each such action made
one node. The text of a token names no node but the one made by the first action that takes a text
behind it, if no other token stands in between.
-/

namespace Sumscript

namespace Action

/-- The kind of the node that an action makes. -/
def makes? : Action → Option Kind
  | .addBinopName => some .binop
  | .addAssign => some .assign
  | action => action.starts?

end Action

namespace Token

/-- The action of a token. -/
def action? (t : Token) : Option Action :=
  match t.label with
  | .action action => some action
  | .rule _ => none

/-- Whether a token is an action that makes a node. -/
def makesNode (t : Token) : Bool :=
  t.action?.any fun action => action.makes?.isSome

/-- Whether a token is an action that takes a text. -/
def takesText (t : Token) : Bool :=
  t.action?.any Action.needsText

/-- Whether a token is an action that attaches a statement. -/
def attachesStatement (t : Token) : Bool :=
  t.label == .action .addStatement

end Token

namespace TokenLog

/-- The token whose text waits behind the first so many tokens of a log. -/
def waiting (log : TokenLog) : Nat → Option Token
  | 0 => none
  | k + 1 =>
    match log[k]? with
    | some t =>
      if t.label.capturesText then some t else if t.takesText then none else waiting log k
    | none => waiting log k

/-- The text of the token at `i` is the one that the action at `k` takes: no token in between
holds a text and no action in between takes one. -/
structure Feeds (log : TokenLog) (i k : Nat) : Prop where
  lt : i < k
  lexeme : ∃ t, log[i]? = some t ∧ t.label.capturesText = true
  taker : ∃ t, log[k]? = some t ∧ t.takesText = true
  between : ∀ m t, i < m → m < k → log[m]? = some t →
    t.label.capturesText = false ∧ t.takesText = false

/-- The positions of the actions that make nodes, among the first `n` tokens. -/
def makers (log : TokenLog) (n : Nat) : List Nat :=
  (List.range n).filter fun k => log[k]?.any Token.makesNode

/-- The kind of the node that the action at a position makes. -/
def kindAt (log : TokenLog) (k : Nat) : Kind :=
  ((log[k]?.bind Token.action?).bind Action.makes?).getD .root

/-- The name of the node that the action at a position makes. -/
def nameAt (chars : Array Char) (log : TokenLog) (k : Nat) : String :=
  if log[k]?.any Token.takesText then
    ((log.waiting k).map fun t => t.text chars).getD ""
  else ""

end TokenLog

/-- A tree of positions in a log: at each of them an action made the node that stands there. -/
structure Origin where
  position : Nat
  parts : List Origin

namespace Origin

mutual

/-- The node whose parts were made at given positions of a log. -/
def node (chars : Array Char) (log : TokenLog) : Origin → Node
  | ⟨k, parts⟩ => ⟨log.kindAt k, log.nameAt chars k, nodes chars log parts⟩

/-- The nodes that were made at given positions of a log. -/
def nodes (chars : Array Char) (log : TokenLog) : List Origin → List Node
  | [] => []
  | o :: rest => o.node chars log :: nodes chars log rest

end

mutual

/-- All positions in a tree. -/
def positions : Origin → List Nat
  | ⟨k, parts⟩ => k :: allPositions parts

/-- All positions in several trees. -/
def allPositions : List Origin → List Nat
  | [] => []
  | o :: rest => o.positions ++ allPositions rest

end

section Nodes

variable {chars : Array Char} {log : TokenLog}

theorem nodes_append (os os' : List Origin) :
    nodes chars log (os ++ os') = nodes chars log os ++ nodes chars log os' := by
  induction os with
  | nil => rfl
  | cons o rest ih => exact congrArg (o.node chars log :: ·) ih

theorem length_nodes (os : List Origin) : (nodes chars log os).length = os.length := by
  induction os with
  | nil => rfl
  | cons o rest ih => exact congrArg (· + 1) ih

theorem allPositions_append (os os' : List Origin) :
    allPositions (os ++ os') = allPositions os ++ allPositions os' := by
  induction os with
  | nil => rfl
  | cons o rest ih => rw [List.cons_append, allPositions, allPositions, ih, List.append_assoc]

mutual

theorem size_node (o : Origin) : (o.node chars log).size = o.positions.length := by
  obtain ⟨k, parts⟩ := o
  rw [node, Node.size, positions, List.length_cons, totalSize_nodes parts, Nat.add_comm]

theorem totalSize_nodes (os : List Origin) :
    Node.totalSize (nodes chars log os) = (allPositions os).length := by
  cases os with
  | nil => rfl
  | cons o rest =>
      rw [nodes, Node.totalSize, allPositions, List.length_append, size_node o,
        totalSize_nodes rest]

end

end Nodes

end Origin

namespace TokenLog

variable {log : TokenLog} {k : Nat} {t : Token}

theorem waiting_succ (h : log[k]? = some t) : log.waiting (k + 1) =
    if t.label.capturesText then some t else if t.takesText then none else log.waiting k := by
  rw [waiting, h]

/-- The token whose text waits is the last one that holds a text, and its text was not taken. -/
theorem exists_of_waiting {lexeme : Token} (h : log.waiting k = some lexeme) :
    ∃ i, i < k ∧ log[i]? = some lexeme ∧ lexeme.label.capturesText = true ∧
      ∀ m t, i < m → m < k → log[m]? = some t →
        t.label.capturesText = false ∧ t.takesText = false := by
  induction k with
  | zero => cases h
  | succ k ih =>
      -- What waited before goes on waiting behind a token that neither holds nor takes a text.
      have hkept : log.waiting k = some lexeme → (∀ t, log[k]? = some t →
          t.label.capturesText = false ∧ t.takesText = false) → ∃ i, i < k + 1 ∧
            log[i]? = some lexeme ∧ lexeme.label.capturesText = true ∧
            ∀ m t, i < m → m < k + 1 → log[m]? = some t →
              t.label.capturesText = false ∧ t.takesText = false := by
        intro hwaiting hquiet
        obtain ⟨i, hlt, hget, hcaptures, hbetween⟩ := ih hwaiting
        refine ⟨i, Nat.lt_succ_of_lt hlt, hget, hcaptures, fun m t him hmk hm => ?_⟩
        rcases Nat.lt_succ_iff_lt_or_eq.mp hmk with hmk | rfl
        · exact hbetween m t him hmk hm
        · exact hquiet t hm
      cases hget : log[k]? with
      | none =>
          rw [waiting, hget] at h
          exact hkept h fun t ht => nomatch hget.symm.trans ht
      | some t =>
          rw [waiting_succ hget] at h
          split at h
          next hcaptures =>
            cases h
            exact ⟨k, Nat.lt_succ_self k, hget, hcaptures, fun m t hkm hmk => by omega⟩
          next hcaptures =>
            split at h
            · cases h
            next htakes =>
              refine hkept h fun t' ht' => ?_
              cases hget.symm.trans ht'
              exact ⟨Bool.eq_false_iff.mpr hcaptures, Bool.eq_false_iff.mpr htakes⟩

/-- A token feeds one action at most. -/
theorem Feeds.unique {i k' : Nat} (h : log.Feeds i k) (h' : log.Feeds i k') : k = k' := by
  obtain ⟨t, hget, htakes⟩ := h.taker
  obtain ⟨t', hget', htakes'⟩ := h'.taker
  rcases Nat.lt_trichotomy k k' with hlt | heq | hlt
  · rw [(h'.between k t h.lt hlt hget).2] at htakes
    cases htakes
  · exact heq
  · rw [(h.between k' t' h'.lt hlt hget').2] at htakes'
    cases htakes'

/-- An action is fed by one token at most. -/
theorem Feeds.unique_token {i i' : Nat} (h : log.Feeds i k) (h' : log.Feeds i' k) : i = i' := by
  obtain ⟨t, hget, hcaptures⟩ := h.lexeme
  obtain ⟨t', hget', hcaptures'⟩ := h'.lexeme
  rcases Nat.lt_trichotomy i i' with hlt | heq | hlt
  · rw [(h.between i' t' hlt h'.lt hget').1] at hcaptures'
    cases hcaptures'
  · exact heq
  · rw [(h'.between i t hlt h.lt hget).1] at hcaptures
    cases hcaptures

theorem makers_succ (h : log[k]? = some t) :
    log.makers (k + 1) = log.makers k ++ if t.makesNode then [k] else [] := by
  unfold makers
  rw [List.range_succ, List.filter_append, List.filter_cons, List.filter_nil, h]
  rfl

/-- There are as many positions of actions that make nodes as such actions. -/
theorem length_makers (log : TokenLog) :
    (log.makers log.length).length = log.countP Token.makesNode := by
  have hfirst : ∀ k, k ≤ log.length →
      (log.makers k).length = (log.take k).countP Token.makesNode := by
    intro k
    induction k with
    | zero => exact fun _ => rfl
    | succ k ih =>
        intro hk
        have hget := List.getElem?_eq_getElem hk
        rw [makers_succ hget, List.length_append, ih (Nat.le_of_lt hk), List.take_add_one, hget,
          List.countP_append, Option.toList_some, List.countP_singleton]
        cases log[k].makesNode <;> rfl
  rw [hfirst _ (Nat.le_refl _), List.take_length]

end TokenLog

/-! ## The nodes in progress -/

namespace Origin

/-- The builder whose nodes were made at given positions of a log. -/
def builder (chars : Array Char) (log : TokenLog) (statements stack : List Origin) : Builder :=
  ⟨⟨.root, "", nodes chars log statements⟩, nodes chars log stack⟩

/-- The first `n` tokens of a log leave the nodes that were made at these positions, over
whatever text. The positions are those of all actions that make nodes. -/
structure Covers (log : TokenLog) (n : Nat) (statements stack : List Origin) : Prop where
  replayed : ∀ chars, Builder.replay chars (log.take n) (none, .empty) =
    .ok ((log.waiting n).map fun t => t.text chars, builder chars log statements stack)
  made : (allPositions (statements ++ stack)).Perm (log.makers n)
  attached : statements.length = (log.take n).countP Token.attachesStatement

section Covers

variable {chars : Array Char} {log : TokenLog} {n : Nat} {token : Token} {action : Action}
  {i j : Nat} {statements stack statements' stack' : List Origin}

theorem covers_zero : Covers log 0 [] [] where
  replayed _ := rfl
  made := .refl _
  attached := rfl

/-- One more token, by what it does to the builder over every text. -/
theorem Covers.next (h : Covers log n statements stack) (htoken : log[n]? = some token)
    (hreplay : ∀ chars, Builder.replayToken chars
      ((log.waiting n).map fun t => t.text chars, builder chars log statements stack) token =
        .ok ((log.waiting (n + 1)).map fun t => t.text chars,
          builder chars log statements' stack'))
    (hmade : (allPositions (statements' ++ stack')).Perm
      (allPositions (statements ++ stack) ++ if token.makesNode then [n] else []))
    (hattached : statements'.length =
      statements.length + if token.attachesStatement then 1 else 0) :
    Covers log (n + 1) statements' stack' where
  replayed chars := by
    rw [List.take_add_one, htoken, Builder.replay_append, h.replayed]
    change Builder.replay chars [token] _ = _
    rw [Builder.replay_cons, hreplay]
    rfl
  made := by
    rw [TokenLog.makers_succ htoken]
    exact hmade.trans (h.made.append_right _)
  attached := by
    rw [hattached, h.attached, List.take_add_one, htoken, List.countP_append,
      Option.toList_some, List.countP_singleton]

/-- The token of a rule at most leaves its text. -/
theorem Covers.next_rule {rule : Rule} (h : Covers log n statements stack)
    (htoken : log[n]? = some ⟨.rule rule, i, j⟩) : Covers log (n + 1) statements stack := by
  refine h.next htoken (fun chars => ?_) (.of_eq (List.append_nil _).symm) rfl
  rw [TokenLog.waiting_succ htoken]
  change Except.ok (if rule.capturesText = true then _ else _, _) =
    Except.ok (Option.map _ (if rule.capturesText = true then _ else _), _)
  by_cases hcaptures : rule.capturesText = true
  · rw [if_pos hcaptures, if_pos hcaptures]
    rfl
  · rw [if_neg hcaptures, if_neg hcaptures]
    rfl

/-- The text that an action takes behind the first tokens of a log. -/
def taken (chars : Array Char) (log : TokenLog) (n : Nat) (action : Action) : Option String :=
  if action.needsText then (log.waiting n).map fun t => t.text chars else none

/-- An action moves the same nodes over every text. -/
theorem Covers.next_action (h : Covers log n statements stack)
    (htoken : log[n]? = some ⟨.action action, i, j⟩)
    (hmoves : ∀ chars, Builder.Moves action (taken chars log n action)
      (builder chars log statements stack) (builder chars log statements' stack'))
    (hmade : (allPositions (statements' ++ stack')).Perm
      (allPositions (statements ++ stack) ++ if action.makes?.isSome then [n] else []))
    (hattached : statements'.length =
      statements.length + if action = .addStatement then 1 else 0) :
    Covers log (n + 1) statements' stack' := by
  refine h.next htoken (fun chars => ?_) hmade ?_
  · have happly := (hmoves chars).apply_eq
    unfold taken at happly
    rw [TokenLog.waiting_succ htoken]
    unfold Builder.replayToken
    dsimp only
    rw [happly]
    change Except.ok (if action.needsText = true then _ else _, _) =
      Except.ok (Option.map _ (if action.needsText = true then _ else _), _)
    by_cases hneeds : action.needsText = true
    · rw [if_pos hneeds, if_pos hneeds]
      rfl
    · rw [if_neg hneeds, if_neg hneeds]
  · rw [hattached]
    cases action <;> rfl

/-- What an action takes over one text it takes over every text, as the name of its node. -/
theorem taken_eq_some {name : String} (htoken : log[n]? = some ⟨.action action, i, j⟩)
    (h : taken chars log n action = some name) (chars' : Array Char) :
    taken chars' log n action = some (log.nameAt chars' n) := by
  unfold taken at h ⊢
  unfold TokenLog.nameAt
  rw [htoken]
  change _ = some (if action.needsText = true then _ else _)
  split at h
  next hneeds =>
    rw [if_pos hneeds, if_pos hneeds]
    cases hwaiting : log.waiting n with
    | none =>
        rw [hwaiting] at h
        cases h
    | some lexeme => rfl
  next => cases h

theorem kindAt_eq {kind : Kind} (htoken : log[n]? = some ⟨.action action, i, j⟩)
    (hmakes : action.makes? = some kind) : log.kindAt n = kind := by
  unfold TokenLog.kindAt
  rw [htoken]
  change action.makes?.getD .root = kind
  rw [hmakes]
  rfl

theorem kind_node (o : Origin) : (o.node chars log).kind = log.kindAt o.position := by
  cases o
  rfl

theorem nodes_eq_cons {t : Node} {rest : List Node} {os : List Origin}
    (h : nodes chars log os = t :: rest) :
    ∃ o os', os = o :: os' ∧ o.node chars log = t ∧ nodes chars log os' = rest := by
  cases os with
  | nil => cases h
  | cons o os' =>
      obtain ⟨hnode, hrest⟩ := List.cons.inj h
      exact ⟨o, os', rfl, hnode, hrest⟩

/-- A node that is made from nodes on the stack keeps their positions and adds its own. -/
theorem perm_made {parts rest : List Origin} (used : List Origin)
    (h : (allPositions parts).Perm (allPositions used)) :
    (allPositions (statements ++ ⟨n, parts⟩ :: rest)).Perm
      (allPositions (statements ++ (used ++ rest)) ++ [n]) := by
  simp only [allPositions_append, allPositions, positions]
  have hrest : (n :: allPositions parts ++ allPositions rest).Perm
      (n :: (allPositions used ++ allPositions rest)) :=
    (h.append_right _).cons n
  rw [List.append_assoc]
  exact (hrest.trans (List.perm_append_singleton _ _).symm).append_left _

/-- A node that is moved into another one keeps its positions. -/
theorem perm_attached {child : Origin} {parts rest : List Origin} {k : Nat} :
    (allPositions (statements ++ ⟨k, parts ++ [child]⟩ :: rest)).Perm
      (allPositions (statements ++ child :: ⟨k, parts⟩ :: rest)) := by
  simp only [allPositions_append, allPositions, positions, List.append_nil]
  have hcomm : (k :: allPositions parts ++ child.positions).Perm
      (child.positions ++ k :: allPositions parts) :=
    List.perm_append_comm
  have hmoved := hcomm.append_right (allPositions rest)
  rw [List.append_assoc child.positions] at hmoved
  exact hmoved.append_left _

theorem Covers.next_start {kind : Kind} {name : String} (h : Covers log n statements stack)
    (htoken : log[n]? = some ⟨.action action, i, j⟩) (hstarts : action.starts? = some kind)
    (htaken : taken chars log n action = some name) :
    Covers log (n + 1) statements (⟨n, []⟩ :: stack) := by
  have hmakes : action.makes? = some kind := by
    cases action <;> cases hstarts <;> rfl
  refine h.next_action htoken (fun chars' => ?_) ?_ ?_
  · have hbuilder : builder chars' log statements (⟨n, []⟩ :: stack) =
        (builder chars' log statements stack).push (.leaf kind (log.nameAt chars' n)) := by
      rw [← kindAt_eq htoken hmakes]
      rfl
    rw [hbuilder, taken_eq_some htoken htaken]
    exact .start hstarts
  · rw [hmakes]
    exact perm_made [] (.refl _)
  · cases action <;> cases hstarts <;> rfl

theorem Covers.next_binop {name : String} {left : Origin} {rest : List Origin}
    (h : Covers log n statements (left :: rest))
    (htoken : log[n]? = some ⟨.action .addBinopName, i, j⟩)
    (htaken : taken chars log n .addBinopName = some name) :
    Covers log (n + 1) statements (⟨n, [left]⟩ :: rest) := by
  refine h.next_action htoken (fun chars' => ?_) ?_ rfl
  · have hbuilder : builder chars' log statements (⟨n, [left]⟩ :: rest) =
        ⟨⟨.root, "", nodes chars' log statements⟩,
          ⟨.binop, log.nameAt chars' n, [left.node chars' log]⟩ :: nodes chars' log rest⟩ := by
      have hkind : log.kindAt n = .binop := kindAt_eq htoken rfl
      rw [← hkind]
      rfl
    rw [hbuilder, taken_eq_some htoken htaken]
    exact .binop
  · exact perm_made [left] (.refl _)

theorem Covers.next_assign {value target : Origin} {rest : List Origin}
    (h : Covers log n statements (value :: target :: rest))
    (htoken : log[n]? = some ⟨.action .addAssign, i, j⟩)
    (hkind : log.kindAt target.position = .variable) :
    Covers log (n + 1) statements (⟨n, [target, value]⟩ :: rest) := by
  refine h.next_action htoken (fun chars' => ?_) ?_ rfl
  · have hname : log.nameAt chars' n = "" := by
      unfold TokenLog.nameAt
      rw [htoken]
      rfl
    have hbuilder : builder chars' log statements (⟨n, [target, value]⟩ :: rest) =
        ⟨⟨.root, "", nodes chars' log statements⟩,
          ⟨.assign, log.nameAt chars' n, [target.node chars' log, value.node chars' log]⟩ ::
            nodes chars' log rest⟩ := by
      have hassign : log.kindAt n = .assign := kindAt_eq htoken rfl
      rw [← hassign]
      rfl
    rw [hbuilder, hname]
    exact .assign ((kind_node target).trans hkind)
  · have hswap : (allPositions [target, value]).Perm (allPositions [value, target]) := by
      simp only [allPositions, List.append_nil]
      exact List.perm_append_comm
    exact perm_made [value, target] hswap

theorem Covers.next_attach {kind : Kind} {child parent : Origin} {rest : List Origin}
    (h : Covers log n statements (child :: parent :: rest))
    (htoken : log[n]? = some ⟨.action action, i, j⟩)
    (hattaches : action.attachesTo? = some kind) (hkind : log.kindAt parent.position = kind) :
    Covers log (n + 1) statements (⟨parent.position, parent.parts ++ [child]⟩ :: rest) := by
  obtain ⟨k, parts⟩ := parent
  have hmakes : action.makes? = none := by
    cases action <;> cases hattaches <;> rfl
  refine h.next_action htoken (fun chars' => ?_) ?_ ?_
  · have hbuilder : builder chars' log statements (⟨k, parts ++ [child]⟩ :: rest) =
        ⟨⟨.root, "", nodes chars' log statements⟩,
          (node chars' log ⟨k, parts⟩).addChild (child.node chars' log) ::
            nodes chars' log rest⟩ := by
      unfold builder
      rw [nodes, node, nodes_append]
      rfl
    rw [hbuilder]
    exact .attach hattaches hkind
  · rw [hmakes]
    exact perm_attached.trans (.of_eq (List.append_nil _).symm)
  · cases action <;> cases hattaches <;> rfl

theorem Covers.next_statement {statement : Origin} (h : Covers log n statements [statement])
    (htoken : log[n]? = some ⟨.action .addStatement, i, j⟩) :
    Covers log (n + 1) (statements ++ [statement]) [] := by
  refine h.next_action htoken (fun chars' => ?_) ?_ ?_
  · have hbuilder : builder chars' log (statements ++ [statement]) [] =
        ⟨(⟨.root, "", nodes chars' log statements⟩ : Node).addChild
          (statement.node chars' log), []⟩ := by
      unfold builder
      rw [nodes_append]
      rfl
    rw [hbuilder]
    exact .statement
  · rw [List.append_nil]
    exact .of_eq (List.append_nil _).symm
  · rw [List.length_append]
    rfl

/-- An action that succeeds over one text moves nodes that were made before it, or makes one. -/
theorem Covers.exists_next_action {b : Builder} (h : Covers log n statements stack)
    (htoken : log[n]? = some ⟨.action action, i, j⟩)
    (hmoves : Builder.Moves action (taken chars log n action) (builder chars log statements stack)
      b) : ∃ statements' stack', Covers log (n + 1) statements' stack' := by
  generalize hbuilder : builder chars log statements stack = before at hmoves
  generalize htaken : taken chars log n action = text at hmoves
  cases hmoves with
  | start hstarts => exact ⟨_, _, h.next_start htoken hstarts htaken⟩
  | binop =>
      obtain ⟨left, rest, rfl, -⟩ := nodes_eq_cons (congrArg Builder.stack hbuilder)
      exact ⟨_, _, h.next_binop htoken htaken⟩
  | assign hkind =>
      obtain ⟨value, more, rfl, -, hmore⟩ := nodes_eq_cons (congrArg Builder.stack hbuilder)
      obtain ⟨target, rest, rfl, rfl, -⟩ := nodes_eq_cons hmore
      exact ⟨_, _, h.next_assign htoken ((kind_node target).symm.trans hkind)⟩
  | attach hattaches hkind =>
      obtain ⟨child, more, rfl, -, hmore⟩ := nodes_eq_cons (congrArg Builder.stack hbuilder)
      obtain ⟨parent, rest, rfl, rfl, -⟩ := nodes_eq_cons hmore
      exact ⟨_, _, h.next_attach htoken hattaches ((kind_node parent).symm.trans hkind)⟩
  | statement =>
      obtain ⟨statement, more, rfl, -, hmore⟩ := nodes_eq_cons (congrArg Builder.stack hbuilder)
      obtain rfl : more = [] := by
        cases more with
        | nil => rfl
        | cons => cases hmore
      exact ⟨_, _, h.next_statement htoken⟩

/-- A token that can be replayed over one text moves the same nodes over every text. -/
theorem Covers.exists_next {s : Progress} (h : Covers log n statements stack)
    (htoken : log[n]? = some token) (hstep : Builder.replayToken chars
      ((log.waiting n).map fun t => t.text chars, builder chars log statements stack) token =
        .ok s) : ∃ statements' stack', Covers log (n + 1) statements' stack' := by
  obtain ⟨label, i, j⟩ := token
  cases label with
  | rule rule => exact ⟨statements, stack, h.next_rule htoken⟩
  | action action =>
      exact h.exists_next_action htoken (Builder.moves_of_replayToken rfl hstep)

/-- In a log that can be gone through, each token can be replayed on what those before it
leave. -/
theorem Covers.exists_step {s : Progress} (h : Covers log n statements stack)
    (hreplay : Builder.replay chars log (none, .empty) = .ok s) (htoken : log[n]? = some token) :
    ∃ s', Builder.replayToken chars
      ((log.waiting n).map fun t => t.text chars, builder chars log statements stack) token =
        .ok s' := by
  obtain ⟨hn, rfl⟩ := List.getElem?_eq_some_iff.mp htoken
  have hsplit : log = log.take n ++ log[n] :: log.drop (n + 1) := by
    rw [← List.drop_eq_getElem_cons hn, List.take_append_drop]
  rw [hsplit] at hreplay
  obtain ⟨t, t', hbefore, hstep, -⟩ := Builder.exists_replay_of_append hreplay
  rw [h.replayed chars] at hbefore
  cases hbefore
  exact ⟨t', hstep⟩

/-- The first tokens of a log that can be gone through over one text. -/
theorem exists_covers {s : Progress}
    (hreplay : Builder.replay chars log (none, .empty) = .ok s) (hn : n ≤ log.length) :
    ∃ statements stack, Covers log n statements stack := by
  induction n with
  | zero => exact ⟨[], [], covers_zero⟩
  | succ n ih =>
      obtain ⟨statements, stack, hcovers⟩ := ih (Nat.le_of_lt hn)
      have htoken : log[n]? = some log[n] := List.getElem?_eq_getElem hn
      obtain ⟨s', hstep⟩ := hcovers.exists_step hreplay htoken
      exact hcovers.exists_next htoken hstep

/-- Where an action takes a text, a token feeds it, and the node that the action makes has the
text of that token for its name. -/
theorem exists_feeds {s : Progress}
    (hreplay : Builder.replay chars log (none, .empty) = .ok s) (htoken : log[n]? = some token)
    (htakes : token.takesText = true) :
    ∃ i lexeme, log.Feeds i n ∧ log[i]? = some lexeme ∧
      ∀ chars', log.nameAt chars' n = lexeme.text chars' := by
  obtain ⟨hn, -⟩ := List.getElem?_eq_some_iff.mp htoken
  obtain ⟨statements, stack, hcovers⟩ := exists_covers hreplay (Nat.le_of_lt hn)
  obtain ⟨s', hstep⟩ := hcovers.exists_step hreplay htoken
  obtain ⟨lexeme, hwaiting⟩ : ∃ lexeme, log.waiting n = some lexeme := by
    obtain ⟨label, i, j⟩ := token
    cases label with
    | rule rule => cases htakes
    | action action =>
        have hneeds : action.needsText = true := htakes
        obtain ⟨name, htaken⟩ := (Builder.moves_of_replayToken rfl hstep).exists_text hneeds
        rw [if_pos hneeds, Option.map_eq_some_iff] at htaken
        obtain ⟨lexeme, hwaiting, -⟩ := htaken
        exact ⟨lexeme, hwaiting⟩
  obtain ⟨i, hlt, hlexeme, hcaptures, hbetween⟩ := TokenLog.exists_of_waiting hwaiting
  refine ⟨i, lexeme, ⟨hlt, ⟨lexeme, hlexeme, hcaptures⟩, ⟨token, htoken, htakes⟩, hbetween⟩,
    hlexeme, fun chars' => ?_⟩
  unfold TokenLog.nameAt
  rw [htoken, hwaiting]
  exact if_pos htakes

end Covers

end Origin

section Build

variable {chars : Array Char} {log : TokenLog} {root : Node}

theorem Builder.exists_replay_of_build (h : build chars log = .ok root) :
    ∃ waiting, replay chars log (none, .empty) = .ok (waiting, ⟨root, []⟩) := by
  have hlog : applyLog chars log none empty = (replay chars log (none, empty)).map Prod.snd :=
    applyLog_eq_replay (s := (none, empty))
  unfold build at h
  rw [hlog] at h
  cases hreplay : replay chars log (none, empty) with
  | error e =>
      rw [hreplay] at h
      cases h
  | ok s =>
      obtain ⟨waiting, root', stack⟩ := s
      rw [hreplay] at h
      change (Builder.mk root' stack).finish = .ok root at h
      cases stack with
      | nil =>
          cases h
          exact ⟨waiting, rfl⟩
      | cons => cases h

theorem Builder.build_of_replay {waiting : Option String}
    (h : replay chars log (none, .empty) = .ok (waiting, ⟨root, []⟩)) :
    build chars log = .ok root := by
  have hlog : applyLog chars log none empty = (replay chars log (none, empty)).map Prod.snd :=
    applyLog_eq_replay (s := (none, empty))
  unfold build
  rw [hlog, h]
  rfl

/-- The statements of a tree that a log gives, as positions in the log. -/
theorem exists_origins (h : Builder.build chars log = .ok root) :
    ∃ statements, Origin.Covers log log.length statements [] ∧
      root = ⟨.root, "", Origin.nodes chars log statements⟩ := by
  obtain ⟨waiting, hreplay⟩ := Builder.exists_replay_of_build h
  obtain ⟨statements, stack, hcovers⟩ := Origin.exists_covers hreplay (Nat.le_refl _)
  have hleft := hcovers.replayed chars
  rw [List.take_length, hreplay] at hleft
  obtain ⟨-, hbuilder⟩ := Prod.mk.inj (Except.ok.inj hleft)
  obtain ⟨hroot, hstack⟩ := Builder.mk.inj hbuilder
  cases stack with
  | nil => exact ⟨statements, hcovers, hroot⟩
  | cons => cases hstack

end Build

/-- The nodes of a tree that a log gives are those that the actions of the log have made, each of
them once, whatever the text is. So the tree has one node for its root and one for each such
action, and one statement for each that was attached. Every action that takes a text is fed by a
token, whose text names the node that the action makes; and a token feeds one action at most. -/
theorem build_conserves (chars : Array Char) (log : TokenLog) (root : Node)
    (h : Builder.build chars log = .ok root) :
    (∃ statements : List Origin,
      (∀ chars', Builder.build chars' log =
        .ok ⟨.root, "", Origin.nodes chars' log statements⟩) ∧
      (Origin.allPositions statements).Perm (log.makers log.length)) ∧
    root.size = 1 + log.countP Token.makesNode ∧
    root.children.length = log.countP Token.attachesStatement ∧
    (∀ k token, log[k]? = some token → token.takesText = true → ∃ i, log.Feeds i k) ∧
    (∀ i k lexeme, log.Feeds i k → log[i]? = some lexeme →
      ∀ chars', log.nameAt chars' k = lexeme.text chars') ∧
    ∀ i k k', log.Feeds i k → log.Feeds i k' → k = k' := by
  obtain ⟨waiting, hreplay⟩ := Builder.exists_replay_of_build h
  obtain ⟨statements, hcovers, rfl⟩ := exists_origins h
  have hmade := hcovers.made
  rw [List.append_nil] at hmade
  have hattached := hcovers.attached
  rw [List.take_length] at hattached
  refine ⟨⟨statements, fun chars' => ?_, hmade⟩, ?_, ?_, fun k token htoken htakes => ?_,
    fun i k lexeme hfeeds hlexeme chars' => ?_, fun i k k' hk hk' => hk.unique hk'⟩
  · have hleft := hcovers.replayed chars'
    rw [List.take_length] at hleft
    exact Builder.build_of_replay hleft
  · rw [Node.size, Origin.totalSize_nodes, hmade.length_eq, TokenLog.length_makers]
  · exact (Origin.length_nodes statements).trans hattached
  · obtain ⟨i, -, hfeeds, -, -⟩ := Origin.exists_feeds hreplay htoken htakes
    exact ⟨i, hfeeds⟩
  · obtain ⟨token, htoken, htakes⟩ := hfeeds.taker
    obtain ⟨i', lexeme', hfeeds', hlexeme', hname⟩ := Origin.exists_feeds hreplay htoken htakes
    obtain rfl := hfeeds.unique_token hfeeds'
    cases hlexeme.symm.trans hlexeme'
    exact hname chars'

/-- A log of the call `f(1, +2)` in which the sign stands before the first argument is attached. -/
def earlySign : TokenLog :=
  [⟨.rule .name, 0, 1⟩, ⟨.action .addFuncCall, 1, 1⟩, ⟨.rule .number, 1, 2⟩,
    ⟨.action .addLiteral, 2, 2⟩, ⟨.rule .op, 2, 3⟩, ⟨.action .addFuncCallArg, 3, 3⟩,
    ⟨.action .startUnop, 3, 3⟩, ⟨.rule .number, 3, 4⟩, ⟨.action .addLiteral, 4, 4⟩,
    ⟨.action .endUnop, 4, 4⟩, ⟨.action .addFuncCallArg, 4, 4⟩, ⟨.action .addStatement, 4, 4⟩]

/-- The sign waits until the argument before it is attached. -/
theorem build_conserves_earlySign :
    ∃ root, Builder.build "f1+2".toList.toArray earlySign = .ok root ∧ root.size = 1 + 4 ∧
      root.children.length = 1 ∧ earlySign.Feeds 4 6 ∧
      earlySign.nameAt "f1+2".toList.toArray 6 = "+" := by
  have hfeeds : earlySign.Feeds 4 6 :=
    { lt := by decide
      lexeme := ⟨_, rfl, rfl⟩
      taker := ⟨_, rfl, rfl⟩
      between := by
        intro m t h4 h6 ht
        obtain rfl : m = 5 := by omega
        cases ht
        exact ⟨rfl, rfl⟩ }
  refine ⟨⟨.root, "", [⟨.call, "f", [.leaf .literal "1", ⟨.unop, "+", [.leaf .literal "2"]⟩]⟩]⟩,
    rfl, ?_⟩
  obtain ⟨-, hsize, hchildren, -, hname, -⟩ :=
    build_conserves "f1+2".toList.toArray earlySign _ rfl
  exact ⟨hsize, hchildren, hfeeds, hname 4 6 _ hfeeds rfl _⟩

end Sumscript
