import KernSql.Engine.Scans

/- Clients of the engine.

   A client has any number of indexes and tables in one pool and makes requests: it
   creates one, calls an operation of one, or scans one to its end. `serve` is the
   code that runs then, as a program over the pool's calls. The specification is a
   list of finite maps, of which a request concerns one (`Answers`); the others keep
   their values because they lie on other pages. -/
namespace KernSql
open Exec Prog Footprint

inductive Request where
  | createIndex (leafMax internalMax : Nat)
  | createTable
  | index (i : Nat) (op : BPlusTree.Op)
  | table (i : Nat) (op : TableHeap.Op)
  | scanIndex (i : Nat) (lo hi : Key)
  | scanTable (i : Nat)

inductive Reply where
  | done
  | found (rid : Option RID)
  | answer (a : TableHeap.Answer)
  | entries (es : List LeafEntry)
  | rows (found : List (RID × List UInt8))

namespace Engine

/-! The code. -/

/-- A new object goes to the end of the client's list. -/
def make {α : Type} (objs : List Object) (m : PoolProg α) (object : α → Object) :
    PoolProg (Except Status Reply × List Object) := do
  match ← attempt m with
  | .error e => pure (.error e, objs)
  | .ok a => pure (.ok .done, objs ++ [object a])

/-- A call that changes nothing in the object itself. -/
def ask {α : Type} (objs : List Object) (m : PoolProg α) (reply : α → Reply) :
    PoolProg (Except Status Reply × List Object) := do
  let r ← attempt m
  pure (r.map reply, objs)

/-- The answer of a request, and the client's objects after it. -/
def serve (build : Build) (fuel : Nat) (objs : List Object) :
    Request → PoolProg (Except Status Reply × List Object)
  | .createIndex leafMax internalMax => make objs (BPlusTree.Code.create leafMax internalMax) .index
  | .createTable => make objs TableHeap.Code.create .table
  | .index i op => match objs[i]? with
    | some (.index t) => ask objs (BPlusTree.Code.perform t op) .found
    | _ => .fault
  | .table i op => match objs[i]? with
    | some (.table t) => do
      let x ← WithField.passing (TableHeap.Code.perform build fuel op) t
      pure (x.1.map .answer, objs.set i (.table x.2))
    | _ => .fault
  | .scanIndex i lo hi => match objs[i]? with
    | some (.index t) => ask objs (BPlusTree.Code.scanAll fuel fuel t lo hi) .entries
    | _ => .fault
  | .scanTable i => match objs[i]? with
    | some (.table t) => ask objs (TableIterator.Code.scanAll build fuel fuel t) .rows
    | _ => .fault

/-! The specification. -/

/-- The client names objects it has, and passes a table only ids on the table's pages. -/
def Legal (pages : PageId → Option Page) (objs : List Object) : Request → Prop
  | .createIndex _ _ => True
  | .createTable => True
  | .index i _ => ∃ t, objs[i]? = some (.index t)
  | .table i op => ∃ t, objs[i]? = some (.table t) ∧ TableHeap.Legal ({ PageStore.empty with pages := pages }, t) op
  | .scanIndex i _ _ => ∃ t, objs[i]? = some (.index t)
  | .scanTable i => ∃ t, objs[i]? = some (.table t)

/-- The fanouts `Create` accepts. -/
def FanoutOk (leafMax internalMax : Nat) : Prop :=
  (minFanout ≤ leafMax ∧ leafMax ≤ nodeCapacity) ∧ minFanout ≤ internalMax ∧ internalMax ≤ nodeCapacity

/-- What the maps answer, and become. -/
def Answers (vs : List Value) : Request → Except Status Reply → List Value → Prop
  | .createIndex leafMax internalMax, a, vs' =>
    (FanoutOk leafMax internalMax ∧ a = .ok .done ∧ vs' = vs ++ [.index fun _ => none]) ∨
    (¬FanoutOk leafMax internalMax ∧ (∃ e, a = .error e ∧ e.code = .invalidArgument) ∧ vs' = vs)
  | .createTable, a, vs' => a = .ok .done ∧ vs' = vs ++ [.table fun _ => none]
  | .index i op, a, vs' => ∃ m, vs[i]? = some (.index m) ∧ a = (BPlusTree.mapPerform m op).1.map .found ∧
      vs' = vs.set i (.index (BPlusTree.mapPerform m op).2)
  | .table i op, a, vs' => ∃ m m' r, vs[i]? = some (.table m) ∧ TableHeap.Answers m op r m' ∧ a = r.map .answer ∧
      vs' = vs.set i (.table m')
  | .scanIndex i lo hi, a, vs' => ∃ m es, vs[i]? = some (.index m) ∧ BPlusTree.Interval m lo hi es ∧
      a = .ok (.entries es) ∧ vs' = vs
  | .scanTable i, a, vs' => ∃ m found, vs[i]? = some (.table m) ∧ TableHeap.AllRows m found ∧
      a = .ok (.rows found) ∧ vs' = vs

/-- An update that failed halfway: a row of the table is there twice. -/
def Doubled (vs : List Value) : Request → List Value → Prop
  | .table i op, vs' => ∃ m m', vs[i]? = some (.table m) ∧ TableHeap.Doubled m op m' ∧ vs' = vs.set i (.table m')
  | _, _ => False

/-- The frames a request may need. For the index this follows the number of its keys: the write paths pin the
header, a node and a sibling or a new page on each level, and the new root. -/
noncomputable def frames (vs : List Value) : Request → Nat
  | .index i op => match vs[i]? with
    | some (.index m) => op.frames (Nat.log 2 (BPlusTree.size m))
    | _ => 0
  | _ => 2

/-- How the pool may have refused. -/
def Cause (env : PoolEnv) (vs : List Value) (e : Status) : Request → Prop
  | .createTable => env.Refuses e
  | .table _ _ => env.Refuses e
  | .scanTable _ => env.Refuses e
  | req => env.RefusesUnder (frames vs req) e

/-- What a request may do: answer as the maps do, or fail and change nothing, or fail inside an update. -/
def Explained (env : PoolEnv) (vs : List Value) (req : Request) (a : Except Status Reply) (vs' : List Value) : Prop :=
  Answers vs req a vs' ∨ (vs' = vs ∧ ∃ e, a = .error e ∧ Cause env vs e req) ∨
    Doubled vs req vs' ∧ ∃ s p e, env.fetchFails s p = some e

/-! Over a store. -/

section Store
variable {env : PoolEnv} {build : Build} {fuel : Nat} {s : PageStore} {objs : List Object} {vs : List Value}
  {feet : Nat → Set PageId}

/-- The objects after a request. -/
def Outcome (env : PoolEnv) (vs : List Value) (req : Request) (x : Except Status Reply × List Object) (s' : PageStore) :
    Prop :=
  ∃ vs' feet', Beside layout x.2 vs' feet' s'.pages ∧ Explained env vs req x.1 vs'

/-- A call of which the objects do not notice. -/
theorem wp_ask {α : Type} {m : PoolProg α} {reply : α → Reply} {req : Request} (hb : Beside layout objs vs feet s.pages)
    (hm : wp (m.run (PageStore.answer env)) (fun a s' => s'.pages = s.pages ∧ Answers vs req (.ok (reply a)) vs)
      (fun e s' => s'.pages = s.pages ∧ Cause env vs e req) s) :
    wp ((ask objs m reply).run (PageStore.answer env)) (Outcome env vs req) (fun _ _ => False) s := by
  unfold ask
  rw [run_bind, wp_bind, run_attempt, wp_attempt]
  refine wp_mono hm (fun a s' ha => ?_) fun e s' he => ?_
  · exact ⟨vs, feet, ha.1 ▸ hb, .inl ha.2⟩
  · exact ⟨vs, feet, he.1 ▸ hb, .inr (.inl ⟨rfl, e, rfl, he.2⟩)⟩

theorem make_run {α : Type} (m : PoolProg α) (object : α → Object) :
    (make objs m object).run (PageStore.answer env) = (do
      let r ← attempt (m.run (PageStore.answer env))
      match r with
      | .error e => pure (.error e, objs)
      | .ok a => pure (.ok .done, objs ++ [object a])) := by
  unfold make
  rw [run_bind, run_attempt]
  congr 1
  funext r
  cases r <;> rfl

theorem wp_createIndex (hlaw : env.Lawful) (hq : s.guards = []) (hb : Beside layout objs vs feet s.pages)
    (leafMax internalMax : Nat) :
    wp ((serve build fuel objs (.createIndex leafMax internalMax)).run (PageStore.answer env))
      (Outcome env vs (.createIndex leafMax internalMax)) (fun _ _ => False) s := by
  have hlive : ∀ g ∈ s.guards, s.pages g.page ≠ none := fun g hg => by rw [hq] at hg; cases hg
  rw [serve, make_run, BPlusTree.Code.run_create, wp_bind, wp_attempt]
  refine wp_mono (BPlusTree.wp_create_under hlaw hlive) (fun t s' hc => ?_) fun e s' he => ?_
  · obtain ⟨root, hc⟩ := hc
    have hrange := hc.tree.range
    unfold BPlusTree.InRange at hrange
    rw [hc.fanout.1, hc.fanout.2] at hrange
    refine ⟨vs ++ [.index fun _ => none], _, hb.push hc.moves ?_, .inl (.inl ⟨hrange, rfl, rfl⟩)⟩
    exact ⟨_, hc.tree, rfl, rfl⟩
  · rcases he with ⟨hcode, rfl, hout⟩ | ⟨hr, -, hcause⟩
    · refine ⟨vs, feet, hb, .inl (.inr ⟨fun hok => ?_, ⟨e, rfl, hcode⟩, rfl⟩)⟩
      obtain ⟨⟨h1, h2⟩, h3, h4⟩ := hok
      omega
    · rw [hq] at hcause
      exact ⟨vs, feet, hb.keep hr.kept, .inr (.inl ⟨rfl, e, rfl, hcause⟩)⟩

theorem wp_createTable (hlaw : env.Lawful) (hq : s.guards = []) (hb : Beside layout objs vs feet s.pages) :
    wp ((serve build fuel objs .createTable).run (PageStore.answer env)) (Outcome env vs .createTable)
      (fun _ _ => False) s := by
  have hlive : ∀ g ∈ s.guards, s.pages g.page ≠ none := fun g hg => by rw [hq] at hg; cases hg
  rw [serve, make_run, TableHeap.Code.run_create, wp_bind, wp_attempt]
  refine wp_mono (TableHeap.wp_create_fresh hlaw hlive) (fun t s' hc => ?_) fun e s' he => ?_
  · obtain ⟨hrep, hfresh, -⟩ := hc
    have hmoves : Moves ∅ {p | p ∈ [t.firstPageId]} s.pages s'.pages := by
      refine ⟨fun p _ hp => hrep.table.others p fun hin => hp ?_, fun p hp _ => ?_⟩
      · rw [List.mem_singleton.mp hin]
        exact hfresh
      · rw [List.mem_singleton.mp hp]
        exact hfresh
    refine ⟨vs ++ [.table fun _ => none], _, hb.push hmoves ?_, .inl ⟨rfl, rfl⟩⟩
    exact ⟨_, hrep.liesOn, rfl⟩
  · exact ⟨vs, feet, he.1 ▸ hb, .inr (.inl ⟨rfl, e, rfl, he.2.why⟩)⟩

theorem index_value (hb : Beside layout objs vs feet s.pages) {i : Nat} {t : BPlusTree} (ht : objs[i]? = some (.index t)) :
    ∃ T, vs[i]? = some (.index (BPlusTree.contents T.2.toList)) ∧ BPlusTree.TreeAt t s.pages T ∧ feet i = t.foot T := by
  obtain ⟨v, hv, hholds⟩ := hb.value ht
  cases v with
  | index m =>
    obtain ⟨T, hT, rfl, hfoot⟩ := hholds
    exact ⟨T, hv, hT, hfoot⟩
  | table m => exact hholds.elim

theorem table_value (hb : Beside layout objs vs feet s.pages) {i : Nat} {t : TableHeap} (ht : objs[i]? = some (.table t)) :
    ∃ m ps, vs[i]? = some (.table m) ∧ t.LiesOn ps m s.pages ∧ feet i = {p | p ∈ ps} := by
  obtain ⟨v, hv, hholds⟩ := hb.value ht
  cases v with
  | index m => exact hholds.elim
  | table m =>
    obtain ⟨ps, hps, hfoot⟩ := hholds
    exact ⟨m, ps, hv, hps, hfoot⟩

theorem wp_index (hlaw : env.Lawful) (hq : s.guards = []) (hb : Beside layout objs vs feet s.pages) {i : Nat}
    {t : BPlusTree} (ht : objs[i]? = some (.index t)) (op : BPlusTree.Op) :
    wp ((serve build fuel objs (.index i op)).run (PageStore.answer env)) (Outcome env vs (.index i op))
      (fun _ _ => False) s := by
  obtain ⟨T, hv, hT, hfoot⟩ := index_value hb ht
  obtain ⟨hi, -⟩ := List.getElem?_eq_some_iff.mp ht
  rw [serve, ht]
  dsimp only
  unfold ask
  rw [run_bind, wp_bind, run_attempt, BPlusTree.Code.run_perform]
  refine wp_mono (BPlusTree.wp_perform_moves hlaw hq hT op) (fun a s' ha => ?_) fun _ _ he => he
  obtain ⟨T', hT', hmoves, hwhat⟩ := ha
  have hset : objs.set i (.index t) = objs := by
    obtain ⟨hi, he⟩ := List.getElem?_eq_some_iff.mp ht
    rw [← he, List.set_getElem_self]
  have hholds : layout.holds (.index t) (.index (BPlusTree.contents T'.2.toList)) (t.foot T') s'.pages :=
    ⟨T', hT', rfl, rfl⟩
  have hbeside := hb.step hi (hfoot ▸ hmoves) hholds
  rw [hset] at hbeside
  refine ⟨_, _, hbeside, ?_⟩
  rcases hwhat with hans | ⟨rfl, e, rfl, hcause⟩
  · exact .inl ⟨_, hv, congrArg (fun x => x.1.map Reply.found) hans, congrArg (fun x => vs.set i (.index x.2)) hans⟩
  · refine .inr (.inl ⟨?_, e, rfl, ?_⟩)
    · obtain ⟨hi', he⟩ := List.getElem?_eq_some_iff.mp hv
      rw [← he, List.set_getElem_self]
    · show env.RefusesUnder (frames vs (.index i op)) e
      refine hcause.mono ?_
      rw [frames, hv]
      have hheight := hT.height_le_log
      cases op <;> simp only [BPlusTree.Op.frames] <;> omega

theorem wp_table (hlaw : env.Lawful) (hfuel : 2 ^ 32 ≤ fuel) (hq : s.guards = [])
    (hb : Beside layout objs vs feet s.pages) {i : Nat} {t : TableHeap} (ht : objs[i]? = some (.table t))
    {op : TableHeap.Op} (hlegal : TableHeap.Legal (s, t) op) :
    wp ((serve build fuel objs (.table i op)).run (PageStore.answer env)) (Outcome env vs (.table i op))
      (fun _ _ => False) s := by
  obtain ⟨m, ps, hv, hps, hfoot⟩ := table_value hb ht
  obtain ⟨hi, -⟩ := List.getElem?_eq_some_iff.mp ht
  rw [serve, ht]
  dsimp only
  rw [run_bind, wp_bind]
  apply Pool.wp_passing
  rw [TableHeap.Code.run_perform]
  have hspec : wp (attempt (TableHeap.perform env build fuel op)) _ _ (s, t) :=
    TableHeap.wp_perform_moves hlaw hfuel hq hps hlegal
  rw [wp_attempt] at hspec
  have hall : ∀ (r : Except Status TableHeap.Answer) (st : PageStore × TableHeap), (∃ ps' M', st.2.LiesOn ps' M' st.1.pages ∧
      Moves {p | p ∈ ps} {p | p ∈ ps'} s.pages st.1.pages ∧
      (TableHeap.Answers m op r M' ∨ (M' = m ∧ ∃ e, r = .error e ∧ env.Refuses e) ∨
        TableHeap.Doubled m op M' ∧ ∃ s p e, env.fetchFails s p = some e)) →
      Outcome env vs (.table i op) (r.map .answer, objs.set i (.table st.2)) st.1 := by
    intro r st hst
    obtain ⟨ps', M', hlies, hmoves, hwhat⟩ := hst
    have hholds : layout.holds (.table st.2) (.table M') {p | p ∈ ps'} st.1.pages := ⟨ps', hlies, rfl⟩
    have hbeside := hb.step hi (hfoot ▸ hmoves) hholds
    refine ⟨_, _, hbeside, ?_⟩
    rcases hwhat with hans | ⟨rfl, e, rfl, hcause⟩ | ⟨hdouble, hcause⟩
    · exact .inl ⟨m, M', r, hv, hans, rfl, rfl⟩
    · refine .inr (.inl ⟨?_, e, rfl, hcause⟩)
      obtain ⟨hi', he⟩ := List.getElem?_eq_some_iff.mp hv
      rw [← he, List.set_getElem_self]
    · exact .inr (.inr ⟨⟨m, M', hv, hdouble, rfl⟩, hcause⟩)
  exact wp_mono hspec (fun a st h => hall (.ok a) st h) fun e st h => hall (.error e) st h

/-- Every request of a client that keeps its side, whatever the pool does. -/
theorem wp_serve (hlaw : env.Lawful) (hfuel : 2 ^ 64 < fuel) (hq : s.guards = [])
    (hb : Beside layout objs vs feet s.pages) {req : Request} (hlegal : Legal s.pages objs req) :
    wp ((serve build fuel objs req).run (PageStore.answer env)) (Outcome env vs req) (fun _ _ => False) s := by
  have hpages : 2 ^ 32 < fuel := Nat.lt_trans (by decide) hfuel
  cases req with
  | createIndex leafMax internalMax => exact wp_createIndex hlaw hq hb leafMax internalMax
  | createTable => exact wp_createTable hlaw hq hb
  | index i op =>
    obtain ⟨t, ht⟩ := hlegal
    exact wp_index hlaw hq hb ht op
  | table i op =>
    obtain ⟨t, ht, hop⟩ := hlegal
    refine wp_table hlaw (Nat.le_of_lt hpages) hq hb ht ?_
    cases op <;> exact hop
  | scanIndex i lo hi =>
    obtain ⟨t, ht⟩ := hlegal
    obtain ⟨T, hv, hT, -⟩ := index_value hb ht
    rw [serve, ht]
    refine wp_ask hb (wp_mono (BPlusTree.wp_scanAll hpages hfuel hq hT) (fun es s' h => ?_) fun e s' h => ?_)
    · exact ⟨h.2, _, es, hv, h.1, rfl, rfl⟩
    · exact ⟨h.1, h.2.mono (Nat.le_succ 1)⟩
  | scanTable i =>
    obtain ⟨t, ht⟩ := hlegal
    obtain ⟨m, ps, hv, hps, -⟩ := table_value hb ht
    rw [serve, ht]
    refine wp_ask hb (wp_mono (TableHeap.wp_scanAll hpages hfuel hq hps) (fun found s' h => ?_) fun e s' h => ?_)
    · exact ⟨h.2, m, found, hv, h.1, rfl, rfl⟩
    · exact h

end Store
end Engine
end KernSql
