import EmbedSanitizer.Executions
import Mathlib.Data.List.GetD
import Mathlib.Data.List.TakeWhile

namespace ThreadSanitizer

section Walks
variable {α : Type*} {g : Node → List α} {c : Node} {last : Option Instruction}

def walk (g : Node → List α) (last : Option Instruction) (nodes : List Node) : List α := (upTo (Node.ends last) nodes).flatMap g

-- Nothing is seen of a phi, of a landing pad or of an escape itself, and of a call
-- the same whether it unwinds to a cleanup or not.
structure Regular (g : Node → List α) : Prop where
  same : ∀ {n n'}, Same n n' → g n' = g n
  phi : ∀ {n}, n.isPhi = true → g n = []
  escape : ∀ {n}, n.escapes = true → g n = []
  landing : g .landingPad = []

def closes (block : List Node) : Bool := block.getLast?.any Node.escapes

theorem same_ends {n n' : Node} (same : Same n n') : n'.ends last = n.ends last := by cases same <;> rfl

theorem same_escapes {n n' : Node} (same : Same n n') : n'.escapes = n.escapes := by
  cases same with
  | source i u u' =>
    obtain ⟨address,kind⟩ := i
    cases kind <;> rfl
  | _ => rfl

theorem walk_same (regular : Regular g) {block block' : List Node} (same : List.Forall₂ Same block block') :
    walk g last block' = walk g last block := by
  unfold walk
  induction same with
  | nil => rfl
  | cons first _ ih =>
    rw [upTo,upTo,same_ends first]
    split
    · simp [regular.same first]
    · rw [List.flatMap_cons,List.flatMap_cons,ih,regular.same first]

theorem closes_same {block block' : List Node} (same : List.Forall₂ Same block block') : closes block' = closes block := by
  unfold closes
  induction same with
  | nil => rfl
  | @cons n n' rest rest' first later ih =>
    cases later with
    | nil => simp [same_escapes first]
    | cons _ _ => simpa [List.getLast?_cons_cons] using ih

theorem member_same {block block' : List Node} (same : List.Forall₂ Same block block') {i : Instruction}
    (member : ∃ flag, Node.source i flag ∈ block) : ∃ flag, Node.source i flag ∈ block' := by
  obtain ⟨flag,member⟩ := member
  induction same with
  | nil => cases member
  | cons first _ ih =>
    rcases List.mem_cons.mp member with rfl | later
    · cases first with
      | rfl => exact ⟨_,List.mem_cons_self⟩
      | source _ _ u => exact ⟨u,List.mem_cons_self⟩
    · obtain ⟨u,inside⟩ := ih later
      exact ⟨u,List.mem_cons_of_mem _ inside⟩

theorem closes_exit (c : Node) (block : List Node) : closes (insertAtExit c block) = closes block := by
  unfold closes
  induction block with
  | nil => rfl
  | cons n rest ih =>
    cases rest with
    | nil =>
      rw [insertAtExit]
      split <;> rfl
    | cons m rest =>
      rw [insertAtExit,List.getLast?_cons_cons,← ih]
      cases again : insertAtExit c (m :: rest) with
      | nil => cases rest <;> simp [insertAtExit] at again; split at again <;> cases again
      | cons k later => rw [List.getLast?_cons_cons]

theorem walk_none (nodes : List Node) : walk g none nodes = nodes.flatMap g := by
  have goes : ∀ n ∈ nodes, n.ends none = false := by
    intro n _
    unfold Node.ends
    cases n.source? <;> rfl
  have all := upTo_append goes []
  rw [List.append_nil] at all
  rw [walk,all]
  simp [upTo]

theorem walk_exit (regular : Regular g) (c : Node) (block : List Node) :
    walk g none (insertAtExit c block) = walk g none block ++ if closes block then g c else [] := by
  rw [walk_none,walk_none]
  induction block with
  | nil => rfl
  | cons n rest ih =>
    cases rest with
    | nil =>
      rw [insertAtExit]
      cases escapes : n.escapes with
      | true => simp [closes,escapes,regular.escape escapes]
      | false => simp [closes,escapes]
    | cons m rest =>
      have same : closes (n :: m :: rest) = closes (m :: rest) := by simp [closes]
      rw [insertAtExit,List.flatMap_cons,List.flatMap_cons,ih,same,List.append_assoc]

theorem call_stays {i : Instruction} (breaks : i.breaks = true) {n : Node} (ends : n.ends (some i) = true) :
    n.isPhi = false ∧ n.escapes = false := by
  cases n with
  | source j flag =>
    have same : i = j := Option.some.inj (ends_iff.mp ends)
    subst same
    obtain ⟨address,kind⟩ := i
    cases kind <;> first | exact ⟨rfl,rfl⟩ | cases breaks
  | _ => cases ends

theorem source_ends {i : Instruction} {flag : Bool} : (Node.source i flag).ends (some i) = true := by simp [Node.ends,Node.source?,Instruction.ends]

theorem cut_exit {i : Instruction} (breaks : i.breaks = true) (c : Node) {block : List Node} (member : ∃ flag, Node.source i flag ∈ block) :
    walk g (some i) (insertAtExit c block) = walk g (some i) block := by
  unfold walk
  induction block with
  | nil => obtain ⟨_,member⟩ := member; cases member
  | cons n rest ih =>
    cases rest with
    | nil =>
      obtain ⟨flag,member⟩ := member
      have same := List.mem_singleton.mp member
      rw [insertAtExit,if_neg (by rw [← same,(call_stays breaks source_ends).2]; exact Bool.false_ne_true)]
    | cons m rest =>
      rw [insertAtExit,upTo,upTo]
      split
      · rfl
      · rename_i goes
        obtain ⟨flag,member⟩ := member
        have later : Node.source i flag ∈ m :: rest := by
          rcases List.mem_cons.mp member with rfl | later
          · exact absurd source_ends goes
          · exact later
        rw [List.flatMap_cons,List.flatMap_cons,ih ⟨flag,later⟩]

theorem member_exit (c : Node) {block : List Node} {n : Node} (member : n ∈ block) : n ∈ insertAtExit c block := by
  induction block with
  | nil => cases member
  | cons m rest ih =>
    cases rest with
    | nil =>
      rw [insertAtExit]
      split
      · exact List.mem_cons_of_mem _ member
      · exact member
    | cons k rest =>
      rw [insertAtExit]
      rcases List.mem_cons.mp member with rfl | later
      · exact List.mem_cons_self
      · exact List.mem_cons_of_mem _ (ih later)

def entered (c : Node) (block : List Node) : List Node := block.takeWhile Node.isPhi ++ c :: block.dropWhile Node.isPhi

theorem takeWhile_phi {n : Node} {block : List Node} (member : n ∈ block.takeWhile Node.isPhi) : n.isPhi = true :=
  List.mem_takeWhile_imp member

theorem walk_entered (regular : Regular g) {callee : Callback} {args : List Value} {flag : Bool} (calls : ∀ i ∈ last, i.breaks = true)
    (block : List Node) : walk g last (entered (.inserted callee args flag) block) = g (.inserted callee args flag) ++ walk g last block := by
  have goes : ∀ n ∈ block.takeWhile Node.isPhi, n.ends last = false := by
    intro n member
    cases last with
    | none => unfold Node.ends; cases n.source? <;> rfl
    | some i =>
      by_contra ends
      have none := (call_stays (calls i rfl) (Bool.not_eq_false _ ▸ ends)).1
      rw [takeWhile_phi member] at none; cases none
  have silent : (block.takeWhile Node.isPhi).flatMap g = [] :=
    List.flatMap_eq_nil_iff.mpr fun n member => regular.phi (takeWhile_phi member)
  have whole : walk g last block = walk g last (block.takeWhile Node.isPhi ++ block.dropWhile Node.isPhi) := by
    rw [List.takeWhile_append_dropWhile]
  have passes : (Node.inserted callee args flag).ends last = false := rfl
  rw [whole,walk,walk,entered,upTo_append goes,upTo_append goes,List.flatMap_append,List.flatMap_append,silent,upTo,passes]
  rfl

theorem closes_entered {callee : Callback} {args : List Value} {flag : Bool} (block : List Node) :
    closes (entered (.inserted callee args flag) block) = closes block := by
  unfold closes entered
  cases split : block.dropWhile Node.isPhi with
  | nil =>
    have phis : block.takeWhile Node.isPhi = block := by
      have whole := List.takeWhile_append_dropWhile (p := Node.isPhi) (l := block)
      rwa [split,List.append_nil] at whole
    have stays : ∀ n ∈ block.getLast?, n.escapes = false := by
      intro n member
      have phi := takeWhile_phi (phis.symm ▸ List.mem_of_getLast? member)
      obtain ⟨i,flag,rfl⟩ : ∃ i flag, n = .source i flag := by cases n <;> first | exact ⟨_,_,rfl⟩ | cases phi
      obtain ⟨address,kind⟩ := i
      cases kind <;> first | rfl | cases phi
    rw [List.getLast?_concat]
    cases found : block.getLast? with
    | none => rfl
    | some n => simpa [Node.escapes] using (stays n found).symm
  | cons n rest =>
    have whole := List.takeWhile_append_dropWhile (p := Node.isPhi) (l := block)
    rw [split] at whole
    conv_rhs => rw [← whole]
    simp [List.getLast?_append,List.getLast?_cons_cons]

theorem member_entered (c : Node) {block : List Node} {n : Node} (member : n ∈ block) : n ∈ entered c block := by
  rw [← List.takeWhile_append_dropWhile (p := Node.isPhi) (l := block),List.mem_append] at member
  unfold entered
  rcases member with first | later
  · exact List.mem_append_left _ first
  · exact List.mem_append_right _ (List.mem_cons_of_mem _ later)

end Walks

section Escapes
variable {escape : Escape} {F : Function}

def Instruction.isCall (i : Instruction) : Bool :=
  match i.kind with
  | .call .. => true
  | _ => false

inductive Caught (throws : Instruction → Bool) : Node → Node → Prop
  | source (i u) : Caught throws (.source i u) (.source i (u || (i.isCall && throws i)))
  | inserted (callee args u u') : Caught throws (.inserted callee args u) (.inserted callee args u')
  | landingPad : Caught throws .landingPad .landingPad
  | resume : Caught throws .resume .resume

theorem caught_same {throws : Instruction → Bool} {n n' : Node} (caught : Caught throws n n') : Same n n' := by
  cases caught with
  | source i u => exact .source i u _
  | inserted callee args u u' => exact .inserted callee args u u'
  | _ => exact .rfl _

-- What LLVM documents of EscapeEnumerator where it is to handle exceptions: there is
-- one cleanup, unless no call may throw.
def Escape.Catches (throws : Function → Instruction → Bool) (escape : Escape) : Prop :=
  ∀ F c body, ∃ cleanup,
    List.Forall₂ (List.Forall₂ (Caught (throws F))) (body.map (insertAtExit c) ++ cleanup) (escape F true c body) ∧
    (cleanup = [] ∨ cleanup = [[.landingPad,c,.resume]]) ∧
    (cleanup = [] → ∀ block ∈ body, ∀ i, .source i false ∈ block → (i.isCall && throws F i) = false)

def Node.caught (throws : Instruction → Bool) : Node → Node
  | .source i unwinds => .source i (unwinds || (i.isCall && throws i))
  | n => n

def Node.uncaught (throws : Instruction → Bool) : Node → Bool
  | .source i false => i.isCall && throws i
  | _ => false

def catching (throws : Function → Instruction → Bool) : Escape := fun F handles c body =>
  if handles then
    (body.map (insertAtExit c) ++ if body.any fun block => block.any (Node.uncaught (throws F)) then [[.landingPad,c,.resume]] else []).map
      (List.map (Node.caught (throws F)))
  else body.map (insertAtExit c)

theorem caught_map (throws : Instruction → Bool) (n : Node) : Caught throws n (n.caught throws) := by
  cases n with
  | source i unwinds => exact .source i unwinds
  | inserted callee args unwinds => exact .inserted callee args unwinds unwinds
  | landingPad => exact .landingPad
  | resume => exact .resume

theorem catching_catches (throws : Function → Instruction → Bool) : (catching throws).Catches throws := by
  have maps : ∀ {R : Node → Node → Prop} {f : Node → Node}, (∀ n, R n (f n)) → ∀ blocks : Body,
      List.Forall₂ (List.Forall₂ R) blocks (blocks.map (List.map f)) := by
    intro R f each blocks
    refine List.forall₂_map_right_iff.mpr (List.forall₂_same.mpr fun block _ => ?_)
    exact List.forall₂_map_right_iff.mpr (List.forall₂_same.mpr fun n _ => each n)
  intro F c body
  refine ⟨_,maps (caught_map (throws F)) _,?_,?_⟩
  · split
    · exact .inr rfl
    · exact .inl rfl
  · intro none block among i member
    split at none
    · cases none
    · rename_i silent
      by_contra throwing
      refine silent (List.any_eq_true.mpr ⟨block,among,List.any_eq_true.mpr ⟨_,member,?_⟩⟩)
      simpa [Node.uncaught] using throwing

variable {throws : Function → Instruction → Bool}

theorem blocks_same {throws : Instruction → Bool} {blocks blocks' : Body} (same : List.Forall₂ (List.Forall₂ (Caught throws)) blocks blocks')
    (k : ℕ) : List.Forall₂ (Caught throws) (blocks.getD k []) (blocks'.getD k []) := by
  induction same generalizing k with
  | nil => exact .nil
  | cons first _ ih =>
    cases k with
    | zero => exact first
    | succ k => exact ih k

theorem forall₂_member {ε : Type*} {R : ε → ε → Prop} {xs ys : List ε} (related : List.Forall₂ R xs ys) {y : ε} (member : y ∈ ys) :
    ∃ x ∈ xs, R x y := by
  induction related with
  | nil => cases member
  | cons first _ ih =>
    rcases List.mem_cons.mp member with rfl | later
    · exact ⟨_,List.mem_cons_self,first⟩
    · obtain ⟨x,inside,step⟩ := ih later
      exact ⟨x,List.mem_cons_of_mem _ inside,step⟩

theorem escape_block (catches : escape.Catches throws) (c : Node) {body : Body} {k : ℕ} (bound : k < body.length) :
    List.Forall₂ (Caught (throws F)) (insertAtExit c (body.getD k [])) ((escape F true c body).getD k []) := by
  obtain ⟨cleanup,same,_⟩ := catches F c body
  have at_k := blocks_same same k
  rwa [List.getD_append _ _ _ _ (by simpa using bound),List.getD_eq_getElem _ _ (by simpa using bound),List.getElem_map,
    ← List.getD_eq_getElem _ [] bound] at at_k

theorem escape_length (catches : escape.Catches throws) (F : Function) (c : Node) (body : Body) : body.length ≤ (escape F true c body).length := by
  obtain ⟨cleanup,same,_⟩ := catches F c body
  have lengths := same.length_eq
  rw [List.length_append,List.length_map] at lengths
  omega

theorem entry_block {callee : Callback} {body : Body} {k : ℕ} (bound : k < body.length) : (insertAtEntry callee body).getD k [] =
    if k = 0 then entered (.inserted callee [] false) (body.getD k []) else body.getD k [] := by
  cases body with
  | nil => cases bound
  | cons entry rest => cases k <;> rfl

theorem entry_length (callee : Callback) (body : Body) : (insertAtEntry callee body).length = body.length := by cases body <;> rfl

end Escapes

section Placements
variable {α : Type*} {g : Node → List α} {opts : Options} {escape : Escape} {throws : Function → Instruction → Bool} {F : Function}
  {enter exit : List α} {body : Body}

def Function.expandedAt (opts : Options) (F : Function) (k : ℕ) : List Node := expansion opts F.sanitized (F.blocks.getD k [])

structure Placed (g : Node → List α) (opts : Options) (F : Function) (enter exit : List α) (body : Body) : Prop where
  length : F.blocks.length ≤ body.length
  closes : ∀ k, k < F.blocks.length → ThreadSanitizer.closes (body.getD k []) = ThreadSanitizer.closes (F.expandedAt opts k)
  sources : ∀ k, k < F.blocks.length → ∀ i, (∃ flag, Node.source i flag ∈ F.expandedAt opts k) → ∃ flag, Node.source i flag ∈ body.getD k []
  cut : ∀ k, k < F.blocks.length → ∀ i, i.breaks = true → (∃ flag, Node.source i flag ∈ F.expandedAt opts k) →
    walk g (some i) (body.getD k []) = (if k = 0 then enter else []) ++ walk g (some i) (F.expandedAt opts k)
  whole : ∀ k, k < F.blocks.length → walk g none (body.getD k []) =
    (if k = 0 then enter else []) ++ walk g none (F.expandedAt opts k) ++
      if ThreadSanitizer.closes (F.expandedAt opts k) then exit else []

theorem expanded_at (k : ℕ) : (F.expanded opts).getD k [] = F.expandedAt opts k := by
  rw [Function.expanded,Function.expandedAt,List.getD_eq_getElem?_getD,List.getElem?_map,List.getD_eq_getElem?_getD]
  cases F.blocks[k]? <;> rfl

theorem placed_expanded : Placed g opts F [] [] (F.expanded opts) := by
  refine ⟨by simp [Function.expanded],fun k _ => by rw [expanded_at],fun k _ i member => by rwa [expanded_at],fun k _ i _ _ => ?_,fun k _ => ?_⟩
  · rw [expanded_at]
    split <;> rfl
  · rw [expanded_at]
    split <;> split <;> simp

theorem placed_entry (regular : Regular g) (placed : Placed g opts F enter exit body) (callee : Callback) :
    Placed g opts F (g (.inserted callee [] false) ++ enter) exit (insertAtEntry callee body) := by
  have inside : ∀ {k}, k < F.blocks.length → k < body.length := fun bound => Nat.lt_of_lt_of_le bound placed.length
  refine ⟨by rw [entry_length]; exact placed.length,fun k bound => ?_,fun k bound i member => ?_,fun k bound i breaks member => ?_,fun k bound => ?_⟩
  · rw [entry_block (inside bound),← placed.closes k bound]
    split
    · exact closes_entered _
    · rfl
  · obtain ⟨flag,there⟩ := placed.sources k bound i member
    rw [entry_block (inside bound)]
    split
    · exact ⟨flag,member_entered _ there⟩
    · exact ⟨flag,there⟩
  · have before := placed.cut k bound i breaks member
    rw [entry_block (inside bound)]
    by_cases first : k = 0
    · rw [if_pos first] at before ⊢
      rw [if_pos first,walk_entered regular (by simpa using breaks),before,List.append_assoc]
    · rw [if_neg first] at before ⊢
      rw [if_neg first,before]
  · have before := placed.whole k bound
    rw [entry_block (inside bound)]
    by_cases first : k = 0
    · rw [if_pos first] at before ⊢
      rw [if_pos first,walk_entered regular (by simp),before]
      simp only [List.append_assoc]
    · rw [if_neg first] at before ⊢
      rw [if_neg first,before]

theorem placed_escape (regular : Regular g) (catches : escape.Catches throws) (placed : Placed g opts F enter exit body) (c : Node) :
    Placed g opts F enter (exit ++ g c) (escape F true c body) := by
  have inside : ∀ {k}, k < F.blocks.length → k < body.length := fun bound => Nat.lt_of_lt_of_le bound placed.length
  have same : ∀ {k}, k < F.blocks.length → List.Forall₂ Same (insertAtExit c (body.getD k [])) ((escape F true c body).getD k []) :=
    fun bound => (escape_block catches c (inside bound)).imp fun _ _ => caught_same
  refine ⟨placed.length.trans (escape_length catches F c body),fun k bound => ?_,fun k bound i member => ?_,
    fun k bound i breaks member => ?_,fun k bound => ?_⟩
  · rw [closes_same (same bound),closes_exit,placed.closes k bound]
  · obtain ⟨flag,there⟩ := placed.sources k bound i member
    exact member_same (same bound) ⟨flag,member_exit c there⟩
  · rw [walk_same regular (same bound),cut_exit breaks c (placed.sources k bound i member),placed.cut k bound i breaks member]
  · rw [walk_same regular (same bound),walk_exit regular,placed.whole k bound,placed.closes k bound]
    cases ThreadSanitizer.closes (F.expandedAt opts k) <;> simp

-- Calls that throw unwind to a block after those of the function, which shows what
-- is seen at an escape.
structure Landed (g : Node → List α) (throws : Function → Instruction → Bool) (F : Function) (exit : List α) (body : Body) : Prop where
  beyond : F.blocks.length < body.length
  closes : ThreadSanitizer.closes (body.getD F.blocks.length []) = true
  landing : walk g none (body.getD F.blocks.length []) = exit
  flagged : ∀ k, k < F.blocks.length → ∀ i flag, Node.source i flag ∈ body.getD k [] → (i.isCall && throws F i) = true → flag = true

theorem landed_entry (landed : Landed g throws F exit body) (blocks : 0 < F.blocks.length) (callee : Callback) :
    Landed g throws F exit (insertAtEntry callee body) := by
  have after : F.blocks.length ≠ 0 := by omega
  have same : (insertAtEntry callee body).getD F.blocks.length [] = body.getD F.blocks.length [] := by
    rw [entry_block landed.beyond,if_neg after]
  refine ⟨by rw [entry_length]; exact landed.beyond,by rw [same]; exact landed.closes,by rw [same]; exact landed.landing,?_⟩
  intro k bound i flag member throwing
  rw [entry_block (Nat.lt_trans bound landed.beyond)] at member
  split at member
  · refine landed.flagged k bound i flag ?_ throwing
    rw [entered,List.mem_append,List.mem_cons] at member
    rcases member with first | same | later
    · exact (List.takeWhile_prefix _).subset first
    · cases same
    · exact (List.dropWhile_suffix _).subset later
  · exact landed.flagged k bound i flag member throwing

theorem landed_first (regular : Regular g) (catches : escape.Catches throws) {callee : Callback} (same : body.length = F.blocks.length)
    (fresh : ∀ block ∈ body, ∀ i flag, Node.source i flag ∈ block → flag = false)
    {k : ℕ} {i : Instruction} (bound : k < F.blocks.length) (member : ∃ flag, Node.source i flag ∈ body.getD k [])
    (throwing : (i.isCall && throws F i) = true) :
    Landed g throws F (g (.inserted callee [] false)) (escape F true (.inserted callee [] false) body) := by
  have inside : ∀ {k}, k < F.blocks.length → k < body.length := fun bound => by rwa [same]
  have among : ∀ {k}, k < F.blocks.length → body.getD k [] ∈ body := by
    intro k bound
    rw [List.getD_eq_getElem _ _ (inside bound)]
    exact List.getElem_mem _
  obtain ⟨cleanup,blocks,one,all⟩ := catches F (.inserted callee [] false) body
  have made : cleanup = [[.landingPad,.inserted callee [] false,.resume]] := by
    refine one.resolve_left fun none => ?_
    obtain ⟨flag,member⟩ := member
    have unflagged := fresh _ (among bound) i flag member
    subst unflagged
    rw [all none _ (among bound) i member] at throwing
    cases throwing
  subst made
  have landing := blocks_same blocks F.blocks.length
  rw [← same,List.getD_append_right _ _ _ _ (by simp)] at landing
  simp only [List.length_map,Nat.sub_self,List.getD_cons_zero] at landing
  have pad := landing.imp fun _ _ => caught_same
  refine ⟨?_,?_,?_,fun k bound i flag member throwing => ?_⟩
  · have lengths := blocks.length_eq
    rw [List.length_append,List.length_map] at lengths
    simp only [List.length_singleton] at lengths
    omega
  · rw [← same,closes_same pad]
    rfl
  · rw [← same,walk_same regular pad,walk_none]
    simp [regular.landing,regular.escape (show Node.resume.escapes = true from rfl)]
  · have caught := escape_block (F := F) catches (.inserted callee [] false) (inside bound)
    obtain ⟨n,before,step⟩ := forall₂_member caught member
    cases step with
    | source _ u => simp [throwing]

theorem landed_escape (regular : Regular g) (catches : escape.Catches throws) (landed : Landed g throws F exit body) {callee : Callback} :
    Landed g throws F (exit ++ g (.inserted callee [] false)) (escape F true (.inserted callee [] false) body) := by
  have caught := fun {k} (bound : k < body.length) => escape_block (F := F) catches (.inserted callee [] false) bound
  have pad := (caught landed.beyond).imp fun _ _ => caught_same
  refine ⟨landed.beyond.trans_le (escape_length catches F _ body),?_,?_,fun k bound i flag member throwing => ?_⟩
  · rw [closes_same pad,closes_exit,landed.closes]
  · rw [walk_same regular pad,walk_exit regular,landed.landing,landed.closes,if_pos rfl]
  · obtain ⟨n,_,step⟩ := forall₂_member (caught (Nat.lt_trans bound landed.beyond)) member
    cases step with
    | source _ u => simp [throwing]

def Function.Throws (throws : Function → Instruction → Bool) (opts : Options) (F : Function) : Prop :=
  ∃ k, k < F.blocks.length ∧ ∃ i, (∃ flag, Node.source i flag ∈ F.expandedAt opts k) ∧ (i.isCall && throws F i) = true

structure Framing (g : Node → List α) (throws : Function → Instruction → Bool) (opts : Options) (F : Function) (enter exit : List α)
    (body : Body) : Prop where
  placed : Placed g opts F enter exit body
  landed : F.Throws throws opts → Landed g throws F exit body

theorem expanded_fresh : ∀ block ∈ F.expanded opts, ∀ i flag, Node.source i flag ∈ block → flag = false := by
  intro block among i flag member
  obtain ⟨code,_,rfl⟩ := List.mem_map.mp among
  have core := settled_expansion F.sanitized code _ member
  simp only [Node.core,Option.some.injEq,Node.source.injEq] at core
  exact core.2.symm

theorem entry_fresh {callee : Callback} (fresh : ∀ block ∈ body, ∀ i flag, Node.source i flag ∈ block → flag = false) :
    ∀ block ∈ insertAtEntry callee body, ∀ i flag, Node.source i flag ∈ block → flag = false := by
  cases body with
  | nil => exact fresh
  | cons entry rest =>
    intro block among i flag member
    rcases List.mem_cons.mp among with rfl | later
    · rw [List.mem_append,List.mem_cons] at member
      refine fresh entry List.mem_cons_self i flag ?_
      rcases member with first | same | last
      · exact (List.takeWhile_prefix _).subset first
      · cases same
      · exact (List.dropWhile_suffix _).subset last
    · exact fresh block (List.mem_cons_of_mem _ later) i flag member

theorem framing_first (regular : Regular g) (catches : escape.Catches throws) (begins ends : Callback) :
    Framing g throws opts F (g (.inserted begins [] false)) (g (.inserted ends [] false))
      (escape F true (.inserted ends [] false) (insertAtEntry begins (F.expanded opts))) := by
  have entry : Placed g opts F (g (.inserted begins [] false) ++ []) [] (insertAtEntry begins (F.expanded opts)) :=
    placed_entry regular placed_expanded begins
  have placed := placed_escape regular catches entry (.inserted ends [] false)
  rw [List.append_nil,List.nil_append] at placed
  refine ⟨placed,fun ⟨k,bound,i,member,throwing⟩ => ?_⟩
  exact landed_first regular catches (by rw [entry_length]; simp [Function.expanded]) (entry_fresh expanded_fresh) bound
    (entry.sources k bound i member) throwing

theorem framing_exit (regular : Regular g) (catches : escape.Catches throws) (framing : Framing g throws opts F enter exit body)
    (ends : Callback) : Framing g throws opts F enter (exit ++ g (.inserted ends [] false)) (escape F true (.inserted ends [] false) body) :=
  ⟨placed_escape regular catches framing.placed _,fun some => landed_escape regular catches (framing.landed some)⟩

theorem framing_entry (regular : Regular g) (framing : Framing g throws opts F enter exit body) (begins : Callback) :
    Framing g throws opts F (g (.inserted begins [] false) ++ enter) exit (insertAtEntry begins body) :=
  ⟨placed_entry regular framing.placed begins,fun some => landed_entry (framing.landed some) (Nat.zero_lt_of_lt some.choose_spec.1) begins⟩

-- The function is entered before all else that is seen, and left after it, on
-- whatever way.
theorem finished_framing (regular : Regular g) (catches : escape.Catches throws) (frames : opts.instrumentFuncEntryExit = true)
    (handles : opts.handleCxxExceptions = true) (framed : (F.changed opts || F.blocks.flatten.any Instruction.breaks) = true)
    (begin_ : g (.inserted .ignoreThreadBegin [] false) = []) (end_ : g (.inserted .ignoreThreadEnd [] false) = [])
    (main : g (.inserted .mainFuncExit [] false) = []) :
    Framing g throws opts F (g (.inserted .funcEntry [] false)) (g (.inserted .funcExit [] false)) (F.finished opts escape).1 := by
  have crossed : ∀ {body}, Framing g throws opts F (g (.inserted .funcEntry [] false)) (g (.inserted .funcExit [] false))
      (escape F opts.handleCxxExceptions (.inserted .funcExit [] false) (insertAtEntry .funcEntry body)) →
        Framing g throws opts F (g (.inserted .funcEntry [] false)) (g (.inserted .funcExit [] false))
          (instrumentFuncEntryExit opts escape F body) := by
    intro body framing
    unfold instrumentFuncEntryExit
    split
    · have again := framing_exit regular catches framing .mainFuncExit
      rw [main,List.append_nil,← handles] at again
      exact again
    · exact framing
  unfold Function.finished
  dsimp only
  rw [framed,frames,Bool.true_and,if_pos rfl]
  refine crossed ?_
  rw [handles]
  split
  · have ignoring : Framing g throws opts F [] [] (insertRuntimeIgnores opts escape F (F.expanded opts)) := by
      have first : Framing g throws opts F (g (.inserted .ignoreThreadBegin [] false)) (g (.inserted .ignoreThreadEnd [] false))
          (escape F true (.inserted .ignoreThreadEnd [] false) (insertAtEntry .ignoreThreadBegin (F.expanded opts))) :=
        framing_first regular catches .ignoreThreadBegin .ignoreThreadEnd
      rwa [begin_,end_,← handles] at first
    have entry := framing_exit regular catches (framing_entry regular ignoring .funcEntry) .funcExit
    rwa [List.append_nil,List.nil_append] at entry
  · exact framing_first regular catches .funcEntry .funcExit

end Placements

section Unframed
variable {opts : Options} {escape : Escape} {F : Function}

theorem memIntrinsic_breaks {i : Instruction} (intrinsic : i.isMemIntrinsic = true) : i.breaks = true := by
  obtain ⟨callee,found⟩ := Option.isSome_iff_exists.mp intrinsic
  obtain ⟨name,args,kind,_⟩ := memIntrinsic_name found
  simp [Instruction.breaks,kind]

theorem expandOne_plain (nodup : F.blocks.flatten.Nodup) (unchanged : F.changed opts = false) {pre rest : List Instruction} {i : Instruction}
    (member : pre ++ i :: rest ∈ F.blocks) (goes : i.breaks = false) : expandOne opts F.sanitized i rest = [.source i false] := by
  obtain ⟨loads,atomics⟩ := Bool.or_eq_false_iff.mp unchanged
  have inside : i ∈ F.blocks.flatten := List.mem_flatten.mpr ⟨_,member,by simp⟩
  unfold expandOne
  cases atomic : i.isAtomic with
  | true =>
    rw [if_pos rfl]
    cases on : opts.instrumentAtomics with
    | false => rfl
    | true =>
      rw [on,Bool.true_and,List.any_eq_false] at atomics
      have none := Option.not_isSome_iff_eq_none.mp (atomics i (List.mem_filter.mpr ⟨inside,atomic⟩))
      simp [atomicRewrite,none]
  | false =>
    have other : i.isMemIntrinsic = false := by
      by_contra intrinsic
      rw [memIntrinsic_breaks (Bool.not_eq_false _ ▸ intrinsic)] at goes; cases goes
    rw [if_neg Bool.false_ne_true,other,if_neg Bool.false_ne_true]
    cases picked : chosen i rest with
    | true =>
      rw [if_pos rfl]
      cases on : opts.instrumentMemoryAccesses && F.sanitized with
      | false => rfl
      | true =>
        rw [on,Bool.true_and,List.any_eq_false] at loads
        have none := Option.not_isSome_iff_eq_none.mp (loads i ((mem_choices nodup member).mpr picked))
        simp [loadOrStoreRewrite,none]
    | false =>
      rw [if_neg Bool.false_ne_true]
      refine laidOut_alone ?_
      cases requests : Node.request (.source i false) with
      | none => rfl
      | some op =>
        rw [request_breaks requests] at goes; cases goes

theorem unframed_plain (nodup : F.blocks.flatten.Nodup)
    (unframed : (F.changed opts || F.blocks.flatten.any Instruction.breaks) = false) :
    (F.finished opts escape).1 = F.expanded opts ∧
      ∀ k, ∀ n ∈ F.expandedAt opts k, ∃ i, n = .source i false ∧ i.breaks = false := by
  obtain ⟨unchanged,silent⟩ := Bool.or_eq_false_iff.mp unframed
  rw [List.any_eq_false] at silent
  refine ⟨by simp [Function.finished,unchanged,List.any_eq_false.mpr silent],fun k n member => ?_⟩
  have blocks : ∀ pre code, pre ++ code ∈ F.blocks → ∀ n ∈ expansion opts F.sanitized code, ∃ i, n = .source i false ∧ i.breaks = false := by
    intro pre code
    induction code generalizing pre with
    | nil => simp [expansion]
    | cons i rest ih =>
      intro block n member
      have goes : i.breaks = false := Bool.not_eq_true _ ▸ silent i (List.mem_flatten.mpr ⟨_,block,by simp⟩)
      rw [expansion,expandOne_plain nodup unchanged block goes,List.singleton_append,List.mem_cons] at member
      rcases member with rfl | later
      · exact ⟨i,rfl,goes⟩
      · exact ih (pre ++ [i]) (by simpa using block) n later
  rw [Function.expandedAt,List.getD_eq_getElem?_getD] at member
  cases found : F.blocks[k]? with
  | none => rw [found] at member; cases member
  | some code =>
    rw [found] at member
    exact blocks [] code (List.mem_of_getElem? found) n member

end Unframed
end ThreadSanitizer
