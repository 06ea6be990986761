import PLZero.Proofs.Code.Assembly
import PLZero.Proofs.Simulation.Activations
import PLZero.Proofs.Typing.Signature

/-!
# Names in running programs

* `Nested` — blocks of the program, each around the one before it, as they are where a statement
  runs.
* `Env.Means` — which declaration of which layer a name means, and how far up that layer is.
* `Live` — a routine runs in an environment.
* `Live.exec_load`, `Live.exec_store`, `Live.exec_call` — instructions that reach up the static
  chain by the distance of a name reach the activation of its layer.
-/

namespace PLZero

open Machine

/-- A block of the program, with the numbers that the blocks around it declare. -/
structure LegalBlock (p : Program) (l : Layout) (ds : List Decl) (outer : Scopes) : Prop where
  mem : ∀ d ∈ ds, d ∈ p.declarations
  fits : ∃ r, l.Fits r [] ds
  nodup : (Decl.ids ds).Nodup
  bound : Decl.BoundList (Decl.ids ds :: outer) ds

/-- Blocks of the program, each followed by those around it. -/
def Nested (p : Program) (l : Layout) : List (List Decl) → Prop
  | [] => True
  | ds :: bs => LegalBlock p l ds (bs.map Decl.ids) ∧ Nested p l bs

theorem Nested.of_append {p : Program} {l : Layout} {bs bs' : List (List Decl)}
    (h : Nested p l (bs ++ bs')) : Nested p l bs' := by
  induction bs with
  | nil => exact h
  | cons ds bs ih => exact ih h.2

theorem Decl.BoundList.of_mem {Δ : Scopes} {ds : List Decl} (h : Decl.BoundList Δ ds) :
    ∀ d ∈ ds, d.Bound Δ := by
  induction ds with
  | nil => simp
  | cons d ds ih =>
    rw [List.forall_mem_cons]
    exact ⟨h.1, ih h.2⟩

theorem Decl.Bound.atDepth {Δ : Scopes} {d : Decl} (h : d.Bound Δ) : AtDepth Δ d.head.nest := by
  cases d with
  | const | var => exact h
  | procedure => exact h.1

/-- A bound name has its declaration in one of the blocks, and its depth is that of the declaration
with the blocks between. -/
theorem Nested.exists_decl {p : Program} {l : Layout} {bs : List (List Decl)} {ident : Ident}
    (h : Nested p l bs) (hbound : ident.Bound (bs.map Decl.ids)) :
    ∃ inner ds outer d declNest, bs = inner ++ ds :: outer ∧
      LegalBlock p l ds (outer.map Decl.ids) ∧ d ∈ ds ∧ ident.decl = some d.head.id ∧
      d.head.nest = some declNest ∧ ident.nest = some (declNest + inner.length) := by
  obtain ⟨hdepth, id, ids, hdecl, hids, hid⟩ := hbound
  obtain ⟨ds, hds, rfl⟩ := List.mem_map.mp hids
  obtain ⟨inner, outer, rfl⟩ := List.append_of_mem hds
  obtain ⟨d, hd, rfl⟩ := List.mem_map.mp hid
  have hlegal := h.of_append.1
  obtain ⟨declNest, hdeclNest, hdeclDepth⟩ :=
    Option.map_eq_some_iff.mp (hlegal.bound.of_mem d hd).atDepth
  obtain ⟨nest, hnest, hdepth⟩ := Option.map_eq_some_iff.mp hdepth
  simp only [List.length_cons, List.length_map, List.length_append] at hdepth hdeclDepth
  refine ⟨inner, ds, outer, d, declNest, rfl, hlegal, hd, hdecl, hdeclNest, ?_⟩
  rw [hnest, Option.some.injEq]
  omega

/-! ## Meaning of names -/

namespace Env

/-- The name means the declaration `d` of `layer`, inside which are the layers `inner`. -/
structure Means (env : Env) (ident : Ident) (inner : Env) (layer : Layer) (outer : Env) (d : Decl) :
    Prop where
  lookup : env.lookup ident = some ⟨inner, layer, outer, d⟩
  eq : env = inner ++ layer :: outer
  mem : d ∈ layer.decls
  decl : ident.decl = some d.head.id

theorem find?_of_mem {id : Nat} {env : Env} (h : ∃ layer ∈ env, id ∈ Decl.ids layer.decls) :
    ∃ inner layer outer d, find? id env = some ⟨inner, layer, outer, d⟩ ∧
      env = inner ++ layer :: outer ∧ d ∈ layer.decls ∧ d.head.id = id := by
  induction env with
  | nil => simp at h
  | cons layer env ih =>
    rw [find?]
    cases hd : layer.decl? id with
    | some d =>
      refine ⟨[], layer, env, d, rfl, rfl, List.mem_of_find?_eq_some hd, ?_⟩
      simpa using List.find?_some hd
    | none =>
      have hnot : id ∉ Decl.ids layer.decls := by
        intro hmem
        obtain ⟨d, hmem, hid⟩ := List.mem_map.mp hmem
        rw [Layer.decl?, List.find?_eq_none] at hd
        exact hd d hmem (beq_iff_eq.mpr hid)
      obtain ⟨layer', hlayer, hid⟩ := h
      rcases List.mem_cons.mp hlayer with rfl | hlayer
      · exact absurd hid hnot
      · obtain ⟨inner, layer', outer, d, hfind, henv, hd⟩ := ih ⟨layer', hlayer, hid⟩
        exact ⟨layer :: inner, layer', outer, d, by simp [hfind], by rw [henv]; rfl, hd⟩

/-- A bound name means a declaration, and the depths of both give the number of layers between. -/
theorem exists_means {p : Program} {l : Layout} {env : Env} {ident : Ident}
    (hnested : Nested p l (env.map Layer.decls))
    (hbound : ident.Bound ((env.map Layer.decls).map Decl.ids)) :
    ∃ inner layer outer d, env.Means ident inner layer outer d ∧
      LegalBlock p l layer.decls ((outer.map Layer.decls).map Decl.ids) ∧
      ∀ nest declNest, ident.nest = some nest → d.head.nest = some declNest →
        nest - declNest = inner.length := by
  obtain ⟨hdepth, id, ids, hdecl, hids, hid⟩ := hbound
  rw [List.map_map, List.mem_map] at hids
  obtain ⟨layer, hlayer, rfl⟩ := hids
  obtain ⟨inner, layer, outer, d, hfind, rfl, hd, rfl⟩ := find?_of_mem ⟨layer, hlayer, hid⟩
  have hlegal : LegalBlock p l layer.decls ((outer.map Layer.decls).map Decl.ids) := by
    rw [List.map_append] at hnested
    exact hnested.of_append.1
  refine ⟨inner, layer, outer, d, ⟨?_, rfl, hd, hdecl⟩, hlegal,
    fun nest declNest hnest hdeclNest => ?_⟩
  · rw [lookup, hdecl]
    exact hfind
  · have hdecls := (hlegal.bound.of_mem d hd).atDepth
    rw [AtDepth, hdeclNest] at hdecls
    rw [AtDepth, hnest] at hdepth
    simp only [Option.map_some, Option.some.injEq, List.length_cons, List.length_map,
      List.length_append] at hdecls hdepth
    omega

end Env

/-! ## Declarations of names -/

theorem Decl.mem_varHeads {ds : List Decl} {head : DeclHead} :
    head ∈ Decl.varHeads ds ↔ .var head ∈ ds := by
  rw [Decl.varHeads, List.mem_filterMap]
  constructor
  · rintro ⟨d, hd, hhead⟩
    cases d with
    | var head' =>
      cases hhead
      exact hd
    | _ => cases hhead
  · exact fun h => ⟨_, h, rfl⟩

theorem Decl.varHeads_sublist (ds : List Decl) :
    ((Decl.varHeads ds).map DeclHead.id).Sublist (Decl.ids ds) := by
  induction ds with
  | nil => exact .slnil
  | cons d ds ih =>
    cases d with
    | var head => exact ih.cons_cons head.id
    | const head | procedure head => exact ih.cons head.id

/-- The kind of declaration that has such a place. -/
def Storage.kind : Storage → DeclKind
  | .constant _ => .const
  | .variable .. => .var
  | .routine .. => .procedure

/-- The depth of the declaration, for a place that is reached by static links. -/
def Storage.nest? : Storage → Option Nat
  | .constant _ => none
  | .variable _ nest _ => some nest
  | .routine _ nest => some nest

theorem Layout.Fits.exists_storage {l : Layout} {r : Nat} {ds : List Decl} {d : Decl}
    (h : l.Fits r [] ds) (hd : d ∈ ds) :
    ∃ storage, l.get? d.head.id = some storage ∧ storage.kind = d.kind ∧
      ∀ nest, storage.nest? = some nest → d.head.nest = some nest := by
  cases d with
  | const head value => exact ⟨.constant value, h.const hd, rfl, fun _ h => nomatch h⟩
  | var head =>
    obtain ⟨k, hk⟩ := List.mem_iff_getElem?.mp (Decl.mem_varHeads.mpr hd)
    obtain ⟨nest, ty, hnest, -, hget⟩ := h.var hk
    exact ⟨_, hget, rfl, fun _ h => hnest.trans h⟩
  | procedure head decls stmt =>
    obtain ⟨index, nest, hnest, hget⟩ := h.procedure hd
    exact ⟨_, hget, rfl, fun _ h => hnest.trans h⟩

/-- A program with types and numbers. -/
structure Program.Annotated (p : Program) : Prop where
  typed : p.WellTyped Op.resultTy?
  numbered : p.Numbered

/-- A program with types and numbers, ready to run. -/
structure Setting (p : Program) (l : Layout) (image : Image) : Prop extends p.Annotated where
  installed : p.Installed l image

section Declared

variable {p : Program} {l : Layout} {image : Image} {env : Env} {ident : Ident} {id : Nat} {ty : Ty}
  (hp : p.Annotated) (hset : Setting p l image) (hnested : Nested p l (env.map Layer.decls))
  (hbound : ident.Bound ((env.map Layer.decls).map Decl.ids)) (hdecl : ident.decl = some id)

include hnested hbound hdecl

section Annotated

include hp

/-- What the signature says of a name is said by the declaration it means. -/
theorem Program.Annotated.exists_declared {kind : DeclKind}
    (hsig : p.signature id = some (kind, ty)) :
    ∃ inner layer outer d, env.Means ident inner layer outer d ∧
      LegalBlock p l layer.decls ((outer.map Layer.decls).map Decl.ids) ∧
      (∀ nest declNest, ident.nest = some nest → d.head.nest = some declNest →
        nest - declNest = inner.length) ∧
      d.kind = kind ∧ d.head.ty = some ty ∧ d.WellTyped Op.resultTy? p.signature := by
  obtain ⟨inner, layer, outer, d, hmeans, hlegal, hdistance⟩ := Env.exists_means hnested hbound
  have hmem := hlegal.mem d hmeans.mem
  obtain ⟨ty', hty', hrecord⟩ := hp.typed.records hp.numbered d hmem
  have hid : id = d.head.id := Option.some.inj (hdecl.symm.trans hmeans.decl)
  rw [hid, hrecord] at hsig
  cases hsig
  exact ⟨inner, layer, outer, d, hmeans, hlegal, hdistance, rfl, hty',
    hp.typed.declarations d hmem⟩

theorem Program.Annotated.exists_variable (hsig : p.signature id = some (.var, ty)) :
    ∃ inner layer outer head k declNest, env.Means ident inner layer outer (.var head) ∧
      head.ty = some ty ∧ ty.isValue = true ∧ (Decl.varHeads layer.decls)[k]? = some head ∧
      ((Decl.varHeads layer.decls).map DeclHead.id).Nodup ∧
      ∀ storage nest, l.Finds ident storage nest →
        storage = .variable k declNest ty ∧ nest - declNest = inner.length := by
  obtain ⟨inner, layer, outer, d, hmeans, hlegal, hdistance, hkind, hty, htyped⟩ :=
    hp.exists_declared hnested hbound hdecl hsig
  cases d with
  | var head =>
    obtain ⟨k, hk⟩ := List.mem_iff_getElem?.mp (Decl.mem_varHeads.mpr hmeans.mem)
    obtain ⟨r, hfits⟩ := hlegal.fits
    obtain ⟨declNest, ty', hnest, hty', hget⟩ := hfits.var hk
    obtain rfl : ty' = ty := Option.some.inj (hty'.symm.trans hty)
    have hvalue : ty'.isValue = true := by
      cases htyped with
      | var hty'' hvalue =>
        rw [hty'] at hty''
        cases hty''
        exact hvalue
    refine ⟨inner, layer, outer, head, k, declNest, hmeans, hty, hvalue, hk,
      hlegal.nodup.sublist (Decl.varHeads_sublist _), fun storage nest hfinds => ⟨?_, ?_⟩⟩
    · have hplace := (hfinds.get? _ hmeans.decl).symm.trans hget
      rw [List.length_nil, Nat.zero_add] at hplace
      exact Option.some.inj hplace
    · exact hdistance nest declNest hfinds.nest hnest
  | const | procedure => cases hkind

theorem Program.Annotated.exists_constant (hsig : p.signature id = some (.const, ty)) :
    ∃ inner layer outer head value, env.Means ident inner layer outer (.const head value) ∧
      value.ty = ty ∧ ∀ storage nest, l.Finds ident storage nest → storage = .constant value := by
  obtain ⟨inner, layer, outer, d, hmeans, hlegal, -, hkind, hty, htyped⟩ :=
    hp.exists_declared hnested hbound hdecl hsig
  cases d with
  | const head value =>
    obtain ⟨r, hfits⟩ := hlegal.fits
    refine ⟨inner, layer, outer, head, value, hmeans, ?_, fun storage nest hfinds => ?_⟩
    · cases htyped with
      | const hty' => exact Option.some.inj (hty'.symm.trans hty)
    · exact Option.some.inj ((hfinds.get? _ hmeans.decl).symm.trans (hfits.const hmeans.mem))
  | var | procedure => cases hkind

end Annotated

include hset in
theorem Setting.exists_procedure (hsig : p.signature id = some (.procedure, ty)) :
    ∃ inner layer outer head decls stmt callee declNest,
      env.Means ident inner layer outer (.procedure head decls stmt) ∧
      LegalBlock p l layer.decls ((outer.map Layer.decls).map Decl.ids) ∧
      image.Holds l callee decls stmt ∧
      ∀ storage nest, l.Finds ident storage nest →
        storage = .routine callee declNest ∧ nest - declNest = inner.length := by
  obtain ⟨inner, layer, outer, d, hmeans, hlegal, hdistance, hkind, hty, htyped⟩ :=
    hset.exists_declared hnested hbound hdecl hsig
  cases d with
  | procedure head decls stmt =>
    obtain ⟨r, hfits⟩ := hlegal.fits
    obtain ⟨index, declNest, hnest, hget⟩ := hfits.procedure hmeans.mem
    obtain ⟨callee, nest, hget', hholds⟩ :=
      hset.installed.procedures head decls stmt (hlegal.mem _ hmeans.mem)
    rw [hget] at hget'
    cases hget'
    refine ⟨inner, layer, outer, head, decls, stmt, index, declNest, hmeans, hlegal, hholds,
      fun storage nest hfinds => ⟨?_, ?_⟩⟩
    · exact Option.some.inj ((hfinds.get? _ hmeans.decl).symm.trans hget)
    · exact hdistance nest declNest hfinds.nest hnest
  | const | var => cases hkind

end Declared

/-! ## Blocks of procedures -/

/-- Variables whose types have values. -/
def ValueVars (decls : List Decl) : Prop :=
  ∀ head ∈ Decl.varHeads decls, ∃ ty, head.ty = some ty ∧ ty.isValue = true

theorem valueVars_of_wellTyped {T : OpTable} {Γ : Signature} {decls : List Decl}
    (h : ∀ d ∈ decls, d.WellTyped T Γ) : ValueVars decls := by
  intro head hhead
  cases h _ (Decl.mem_varHeads.mp hhead) with
  | @var _ ty hty hvalue => exact ⟨ty, hty, hvalue⟩

section Procedures

variable {p : Program} {l : Layout} {image : Image} {ds decls : List Decl} {outer : Scopes}
  {head : DeclHead} {stmt : Stmt}

theorem Program.Bound.legal (hbound : p.Bound) (hp : p.Numbered)
    (hfits : l.Fits 0 [] p.block.decls) : LegalBlock p l p.block.decls [] := by
  have hnodup : (Decl.ids (Decl.subtrees p.block.decls)).Nodup := hp.nodup
  exact ⟨fun d hd => Decl.mem_subtrees hd, ⟨0, hfits⟩, (Decl.nodup_ids hnodup).1, hbound.decls⟩

/-- The block of a procedure is legal inside the block that declares it. -/
theorem LegalBlock.procedure (h : LegalBlock p l ds outer) (hp : p.Numbered)
    (hmem : .procedure head decls stmt ∈ ds) (hfits : ∃ r, l.Fits r [] decls) :
    LegalBlock p l decls (Decl.ids ds :: outer) ∧
      stmt.Bound (Decl.ids decls :: Decl.ids ds :: outer) := by
  have hsub : (Decl.subtrees decls).Sublist p.declarations :=
    Decl.subtrees_sublist p.block.decls (h.mem _ hmem)
  obtain ⟨-, hdecls, hstmt⟩ := h.bound.of_mem _ hmem
  refine ⟨⟨fun d hd => hsub.subset (Decl.mem_subtrees hd), hfits, ?_, hdecls⟩, hstmt⟩
  have hnodup : (Decl.ids (Decl.subtrees decls)).Nodup := hp.nodup.sublist (hsub.map _)
  exact (Decl.nodup_ids hnodup).1

end Procedures

/-! ## Running in an environment -/

/-- Routine `r`, which is `R`, runs in the environment, the layers of which are in the activations
`is` and belong to the blocks `bs`. -/
structure Live (image : Image) (bs : List (List Decl)) (is : List Nat) (r : Nat) (R : LoadedRoutine)
    (fs : Array Activation) (env : Env) : Prop where
  running : Running image r R fs
  current : is.head? = some (fs.size - 1)
  chain : Represents fs is env
  blocks : env.map Layer.decls = bs

namespace Live

variable {image : Image} {bs : List (List Decl)} {is : List Nat} {r : Nat} {R : LoadedRoutine}
  {fs fs' : Array Activation} {env env' inner outer : Env} {layer : Layer} {o : Prop}
  {st : Array Value} {con : Console} {pc : Nat}

theorem of_moved (h : Live image bs is r R fs env) (hmoved : Moved is fs fs')
    (hchain : Represents fs' is env') (hblocks : env'.map Layer.decls = bs) :
    Live image bs is r R fs' env' := by
  refine ⟨⟨?_, h.running.loaded, h.running.labelled⟩, by rw [hmoved.size, h.current], hchain,
    hblocks⟩
  obtain ⟨a, ha, hr⟩ := h.running.back
  rw [Array.back?_eq_getElem?] at ha
  obtain ⟨a', ha', hr', -⟩ := hmoved.frame _ a ha
  rw [Array.back?_eq_getElem?, hmoved.size, ha']
  exact congrArg some (hr'.trans hr)

/-- A block that begins runs in the environment with its fresh layer. -/
theorem fresh {a : Activation} {decls : List Decl} (hchain : Represents fs is env)
    (hlink : a.link = is.head?) (hstores : a.Stores (.fresh decls))
    (hloaded : image[a.routine]? = some R) (hlabelled : R.Labelled) :
    Live image (decls :: env.map Layer.decls) (fs.size :: is) a.routine R (fs.push a)
      (.fresh decls :: env) :=
  ⟨⟨by simp, hloaded, hlabelled⟩, by simp, hchain.enter hlink hstores, rfl⟩

/-- Activation `i` holds `layer`, and is the one that lies as many links up as there are layers
inside it. -/
structure Reaches (is : List Nat) (fs : Array Activation) (inner : Env) (layer : Layer)
    (outer : Env) (is₁ : List Nat) (i : Nat) (is₂ : List Nat) : Prop where
  eq : is = is₁ ++ i :: is₂
  length_eq : is₁.length = inner.length
  lt : ∀ j ∈ is₁, ∀ k ∈ i :: is₂, k < j
  chain : Represents fs (i :: is₂) (layer :: outer)
  walk_eq : ∀ st pc con, walk inner.length ⟨st, withPc fs pc, con⟩ = .ok i ⟨st, withPc fs pc, con⟩
  slot : ∀ {k : Nat} {head : DeclHead} (pc : Nat), (Decl.varHeads layer.decls)[k]? = some head →
    ((withPc fs pc)[i]?.bind fun frame => frame.locals[k]?) = some (layer.vars head.id)

theorem exists_reaches (h : Live image bs is r R fs (inner ++ layer :: outer)) :
    ∃ is₁ i is₂, Reaches is fs inner layer outer is₁ i is₂ := by
  obtain ⟨is₁, is₂, rfl, hlength, hlt, hrep⟩ := h.chain.split
  cases hrep with
  | @cons i is₂ _ _ a ha hlink hstores hless hrest =>
    refine ⟨is₁, i, is₂, rfl, hlength, hlt, .cons ha hlink hstores hless hrest, fun st pc con => ?_,
      fun {k head} pc hk => ?_⟩
    · have hfollow : follow (withPc fs pc) inner.length (fs.size - 1) = some i := by
        refine (h.chain.withPc pc).follow_eq h.current ?_
        rw [← hlength, List.getElem?_append_right (Nat.le_refl _)]
        simp
      rw [walk_eq (by rw [size_withPc]; exact h.running.pos)]
      rw [size_withPc, hfollow]
      rfl
    · obtain ⟨a', ha', -, hlocals⟩ := sameAt_withPc fs pc i a ha
      have hk' : a.locals.toList[k]? = some (layer.vars head.id) := by simp [hstores.locals, hk]
      simpa [ha', hlocals] using hk'

theorem ty_vars (h : Live image bs is r R fs (inner ++ layer :: outer)) {head : DeclHead}
    (hhead : head ∈ Decl.varHeads layer.decls) : head.ty = some (layer.vars head.id).ty := by
  obtain ⟨is₁, i, is₂, hreach⟩ := h.exists_reaches
  cases hreach.chain with
  | cons _ _ hstores _ _ => exact hstores.typed head hhead

theorem exec_load (h : Live image bs is r R fs (inner ++ layer :: outer)) {k : Nat}
    {head : DeclHead} (hk : (Decl.varHeads layer.decls)[k]? = some head)
    (hroom : ¬o → st.size < maxOperandStack) :
    Gives o (exec image r (.load inner.length k)) ⟨st, withPc fs pc, con⟩
      ⟨st.push (layer.vars head.id), withPc fs pc, con⟩ := by
  obtain ⟨is₁, i, is₂, hreach⟩ := h.exists_reaches
  have hload : loadSlot inner.length k ⟨st, withPc fs pc, con⟩ =
      .ok (layer.vars head.id) ⟨st, withPc fs pc, con⟩ := by
    simp only [loadSlot, bind, EStateM.bind, hreach.walk_eq, get_eq, hreach.slot pc hk]
    rfl
  simp only [Gives, exec, bind, EStateM.bind, hload]
  exact gives_push _ hroom

theorem exec_store (h : Live image bs is r R fs (inner ++ layer :: outer)) {k : Nat}
    {head : DeclHead} {v : Value} (hnodup : ((Decl.varHeads layer.decls).map DeclHead.id).Nodup)
    (hk : (Decl.varHeads layer.decls)[k]? = some head) (hv : head.ty = some v.ty) :
    ∃ fs', exec image r (.store inner.length k) ⟨st.push v, withPc fs pc, con⟩ =
        .ok () ⟨st, withPc fs' pc, con⟩ ∧ Moved is fs fs' ∧
      Live image bs is r R fs' (inner ++ layer.set head.id v :: outer) := by
  obtain ⟨is₁, i, is₂, hreach⟩ := h.exists_reaches
  obtain rfl := hreach.eq
  have hmoved : Moved (is₁ ++ i :: is₂) fs (setSlot fs i k v) := moved_setSlot (by simp) k v
  refine ⟨setSlot fs i k v, ?_, hmoved, h.of_moved hmoved ?_ ?_⟩
  · rw [← setSlot_withPc]
    simp only [exec, storeSlot, bind, EStateM.bind, pop_push, hreach.walk_eq, get_eq,
      hreach.slot pc hk]
    rfl
  · exact h.chain.assign hreach.length_eq (fun j hj => hreach.lt j hj i (List.mem_cons_self ..))
      hreach.chain hnodup hk hv
  · rw [← h.blocks]
    simp [Layer.set]

theorem exec_call (h : Live image bs is r R fs (inner ++ layer :: outer)) {callee : Nat}
    {R' : LoadedRoutine} (hcallee : image[callee]? = some R') :
    ∃ is₁ i is₂, Reaches is fs inner layer outer is₁ i is₂ ∧
      ∀ st pc con, exec image r (.call callee inner.length) ⟨st, withPc fs pc, con⟩ =
        if maxCallDepth ≤ fs.size then .error .callDepth ⟨st, withPc fs pc, con⟩
        else .ok () ⟨st,
          (withPc fs pc).push ⟨callee, 0, (R'.locals.map Ty.default).toArray, some i⟩, con⟩ := by
  obtain ⟨is₁, i, is₂, hreach⟩ := h.exists_reaches
  refine ⟨is₁, i, is₂, hreach, fun st pc con => ?_⟩
  simp only [exec, bind, EStateM.bind, hreach.walk_eq, enter_eq _ hcallee, size_withPc]

/-- A call that has returned leaves the caller running, with its own layers as they were. -/
theorem leave (h : Live image bs is r R fs (inner ++ layer :: outer)) {is₁ is₂ : List Nat}
    {i callee : Nat} {decls : List Decl} {R' : LoadedRoutine} {a : Activation}
    (hreach : Reaches is fs inner layer outer is₁ i is₂)
    (hmoved : Moved (fs.size :: i :: is₂) ((withPc fs pc).push a) fs')
    (h' : Live image (decls :: (layer :: outer).map Layer.decls)
      (fs.size :: i :: is₂) callee R' fs' env') :
    withPc fs'.pop pc = fs'.pop ∧ Moved is fs fs'.pop ∧
      Live image bs is r R fs'.pop (inner ++ env'.tail) := by
  have hsub : ∀ j ∈ fs.size :: i :: is₂, j < fs.size → j ∈ is := by
    intro j hj hlt
    rw [hreach.eq]
    exact List.mem_append_right _ ((List.mem_cons.mp hj).resolve_left (Nat.ne_of_lt hlt))
  have hleft : Moved is fs fs'.pop := hmoved.leave hsub
  refine ⟨hmoved.withPc_leave, hleft, ?_⟩
  obtain ⟨-, -, hchain', hblocks'⟩ := h'
  cases env' with
  | nil => cases hblocks'
  | cons layer' env' =>
    have hchain := h.chain
    rw [hreach.eq] at hchain
    have hrep := hchain.leave hreach.length_eq hreach.lt hmoved hchain'
    rw [← hreach.eq] at hrep
    refine h.of_moved hleft hrep ?_
    rw [← h.blocks, List.map_append, List.map_append, List.tail_cons, ← (List.cons.inj hblocks').2]

end Live

end PLZero
