import LoopNest.Proofs.Accepted
import LoopNest.Proofs.Builder.Grows
import LoopNest.Proofs.Func.Insert
import LoopNest.Proofs.Typing.Declared
import Mathlib.Logic.Relation

/-!
# What checked construction guarantees

The builder checks an instruction once, when it is added, against a type table and a function that
are still growing; the verifier checks the finished function, and takes the type that was stored
for the declared one.  The two agree.  However a function is put together, in whatever order and
with failed calls in between, the verifier finds no instruction that is out of place, none that is
owned by another block, no operand that does not exist and no wrong type (`Site.build_agrees`).

All that a call does to a site is a chain of six kinds of edits (`Site.Edit`, `Site.edits_run`), and
each of them keeps the invariant `Site.Built`.
-/

namespace LoopNest

/-! ## Calls -/

namespace Build

/-- A call of the builder. -/
inductive Action where
  | intern (ty : Ty)
  | block (name : String)
  | constant (s : Scalar) (l : Literal)
  | param (index : Nat)
  | alloca (here : BlockId) (allocated : TyId) (align : Nat) (name : String)
  | load (here : BlockId) (ptr : Operand) (name : String)
  | loadVector (here : BlockId) (ptr : Operand) (lanes : Nat) (name : String)
  | store (here : BlockId) (v ptr : Operand)
  | gep (here : BlockId) (base index : Operand) (name : String)
  | binary (here : BlockId) (op : BinaryOp) (l r : Operand) (name : String)
  | icmp (here : BlockId) (pred : IntPredicate) (l r : Operand) (name : String)
  | fcmp (here : BlockId) (pred : FloatPredicate) (l r : Operand) (name : String)
  | select (here : BlockId) (c t e : Operand) (name : String)
  | phi (here : BlockId) (ty : TyId) (incoming : List (Operand × BlockId)) (name : String)
  | addIncoming (phi v : Operand) (pred : BlockId)
  | bitcast (here : BlockId) (v : Operand) (ty : TyId) (name : String)
  | splat (here : BlockId) (v : Operand) (lanes : Nat) (name : String)
  | call (here : BlockId) (callee : String) (args : List Operand) (ty : TyId)
      (name : Option String)
  | br (here target : BlockId)
  | condBr (here : BlockId) (c : Operand) (thenTo elseTo : BlockId)
  | ret (here : BlockId) (v : Option Operand)

namespace Action

/-- What a call does, without the handle that it gives. -/
def run : Action → Build Unit
  | .intern ty => discard (internTy ty)
  | .block name => discard (Build.block name)
  | .constant s l => discard (Build.constant s l)
  | .param index => discard (Build.param index)
  | .alloca here allocated align name => discard (Build.alloca here allocated align name)
  | .load here ptr name => discard (Build.load here ptr name)
  | .loadVector here ptr lanes name => discard (Build.loadVector here ptr lanes name)
  | .store here v ptr => Build.store here v ptr
  | .gep here base index name => discard (Build.gep here base index name)
  | .binary here op l r name => discard (Build.binary here op l r name)
  | .icmp here pred l r name => discard (Build.icmp here pred l r name)
  | .fcmp here pred l r name => discard (Build.fcmp here pred l r name)
  | .select here c t e name => discard (Build.select here c t e name)
  | .phi here ty incoming name => discard (Build.phi here ty incoming name)
  | .addIncoming target v pred => Build.addIncoming target v pred
  | .bitcast here v ty name => discard (Build.bitcast here v ty name)
  | .splat here v lanes name => discard (Build.splat here v lanes name)
  | .call here callee args ty name => discard (Build.call here callee args ty name)
  | .br here target => Build.br here target
  | .condBr here c thenTo elseTo => Build.condBr here c thenTo elseTo
  | .ret here v => Build.ret here v

/-- The type handles, the block of a phi and the instruction of an added entry exist.  Nothing is
asked of the block of another instruction, of operands and of branch targets. -/
def HandlesExist (s : Site) : Action → Prop
  | .intern ty => ∀ c ∈ ty.shape.components, c < s.types.size
  | .alloca _ allocated _ _ => allocated < s.types.size
  | .phi here ty _ _ => here < s.func.blocks.size ∧ ty < s.types.size
  | .addIncoming target _ _ => ∀ i, target = .inst i → i < s.func.insts.size
  | .bitcast _ _ ty _ => ty < s.types.size
  | .call _ _ _ ty _ => ty < s.types.size
  | _ => True

end Action

end Build

namespace Site

open Build (Action)

/-- The site after a call, which may have failed. -/
def after (s : Site) (a : Action) : Site := (a.run s).2

/-- The site after several calls. -/
def build (s : Site) (as : List Action) : Site := as.foldl after s

/-- The handles of every call exist when it is made. -/
def Admits (s : Site) : List Action → Prop
  | [] => True
  | a :: as => a.HandlesExist s ∧ (s.after a).Admits as

/-- A function that is only declared, over a table in which every type stands once and refers to
earlier types. -/
structure Fresh (s : Site) : Prop where
  distinct : s.types.Distinct
  closed : s.types.Closed
  declared : s.func = .declare s.func.name s.func.params s.func.ret
  tys_lt : ∀ t ∈ s.func.tys, t < s.types.size

/-! ## Edits -/

/-- A type is the one that the operands of an operation give. -/
def Accepts (s : Site) (op : Op) (t : TyId) : Prop :=
  ∃ ty, Typing.resultTy s.types s.func op (some t) = .ok ty ∧ s.types.lookup ty = some t

/-- What a call can do to a site at once. -/
inductive Edit (s : Site) : Site → Prop where
  | intern (ty : Ty) (hty : ∀ c ∈ ty.shape.components, c < s.types.size) :
      Edit s ⟨(s.types.insert ty).2, s.func⟩
  | block (name : String) : Edit s ⟨s.types, (s.func.addBlock name).2⟩
  | constant (t : TyId) (l : Literal) (ht : t < s.types.size) :
      Edit s ⟨s.types, (s.func.addConstant t l).2⟩
  | append (here : BlockId) (d : Func.Draft) (hhere : here < s.func.blocks.size)
      (hopen : s.func.terminator? here = none) (hphi : d.op.isPhi = false)
      (halloc : ∀ t a, d.op = .alloca t a → t < s.types.size) (hty : s.Accepts d.op d.ty) :
      Edit s ⟨s.types, (s.func.appendInst here d).2⟩
  | phi (here : BlockId) (incoming : List (Operand × BlockId)) (t : TyId) (name : Option String)
      (hhere : here < s.func.blocks.size) (hty : s.Accepts (.phi incoming) t) :
      Edit s ⟨s.types, (s.func.insertPhi here incoming t name).2⟩
  | incoming (i : InstId) (v : Operand) (pred : BlockId) (hi : i < s.func.insts.size)
      (hphi : (s.func.op i).isPhi = true) (hv : s.func.operandTy v = .ok (s.func.inst i).ty) :
      Edit s ⟨s.types, s.func.addIncoming i v pred⟩

/-- What calls can do to a site. -/
abbrev Edits : Site → Site → Prop := Relation.ReflTransGen Edit

/-- Types and the types of operands stay. -/
structure KeepsTypes (s s' : Site) : Prop where
  types : s.types.Extends s'.types
  func : s.func.KeepsTypes s'.func

variable {s s' : Site}

theorem Edit.keepsTypes (h : s.Edit s') : s.KeepsTypes s' := by
  cases h with
  | intern ty => exact ⟨s.types.extends_insert ty, .refl _⟩
  | block name => exact ⟨.refl _, (s.func.grows_addBlock name).keepsTypes⟩
  | constant t l => exact ⟨.refl _, (s.func.below_addConstant t l).keepsTypes⟩
  | append here d => exact ⟨.refl _, (s.func.below_insertInst here _ d).keepsTypes⟩
  | phi here incoming t name => exact ⟨.refl _, (s.func.below_insertInst here _ _).keepsTypes⟩
  | incoming i v pred => exact ⟨.refl _, (s.func.grows_addIncoming i v pred).keepsTypes⟩

theorem Edits.keepsTypes (h : s.Edits s') : s.KeepsTypes s' := by
  induction h with
  | refl => exact ⟨.refl _, .refl _⟩
  | tail _ he ih => exact ⟨ih.types.trans he.keepsTypes.types, ih.func.trans he.keepsTypes.func⟩

/-- What was accepted once stays accepted. -/
theorem Accepts.keepsTypes {op : Op} {t : TyId} (h : s.Accepts op t)
    (htys : ∀ t ∈ s.func.tys, t < s.types.size) (hk : s.KeepsTypes s') : s'.Accepts op t := by
  obtain ⟨ty, hty, hlook⟩ := h
  refine ⟨ty, ?_, hk.types.lookup_eq hlook⟩
  have hsame : Typing.Replaces s.types s.func s'.func id op.operands :=
    fun v _ u hu => ⟨hk.func.operandTy_eq v u hu, htys u (Func.mem_tys_of_operandTy hu)⟩
  have hty' := Typing.resultTy_extends hk.types hk.func.ret_eq (htys _ List.mem_cons_self)
    (TypeTable.lookup_lt hlook) hsame hty
  rwa [Func.mapOperands_eq_self (k := id) fun _ _ => rfl] at hty'

end Site

/-! ## Blocks -/

theorem Op.not_isTerminator_of_isPhi {op : Op} (h : op.isPhi = true) : op.isTerminator = false := by
  cases op with
  | phi => rfl
  | _ => cases h

theorem Op.Widens.isTerminator_eq {o o' : Op} (h : o.Widens o') :
    o'.isTerminator = o.isTerminator := by
  cases h <;> rfl

namespace Func

/-- Every block is live and every instruction is held by its block; phis come first, and a
terminator only last. -/
structure Arranged (f : Func) : Prop where
  live : ∀ b < f.blocks.size, b ∈ f.layout
  owned : ∀ i < f.insts.size, ∃ b < f.blocks.size, f.owner i = some b
  owner_eq : ∀ b, ∀ i ∈ f.body b, f.owner i = some b
  terminator_last : ∀ b, ∀ i ∈ (f.body b).dropLast, (f.op i).isTerminator = false
  phi_first : ∀ b, ∀ i ∈ f.afterPhis b, (f.op i).isPhi = false

theorem arranged_declare (name : String) (params : Array Param) (ret : TyId) :
    (declare name params ret).Arranged where
  live _ hb := absurd hb (Nat.not_lt_zero _)
  owned _ hi := absurd hi (Nat.not_lt_zero _)
  owner_eq _ _ hi := absurd hi List.not_mem_nil
  terminator_last _ _ hi := absurd hi List.not_mem_nil
  phi_first _ _ hi := absurd hi List.not_mem_nil

variable {f : Func} {b : BlockId}

theorem dropWhile_isPhi_congr {f g : Func} {is : List InstId}
    (hop : ∀ i ∈ is, (g.op i).isPhi = (f.op i).isPhi) :
    is.dropWhile (fun i => (g.op i).isPhi) = is.dropWhile fun i => (f.op i).isPhi := by
  induction is with
  | nil => rfl
  | cons i is ih =>
    rw [List.dropWhile_cons, List.dropWhile_cons, hop i List.mem_cons_self,
      ih fun j hj => hop j (List.mem_cons_of_mem _ hj)]

theorem afterPhis_congr {f g : Func} {b : BlockId} (hbody : g.body b = f.body b)
    (hop : ∀ i ∈ f.body b, (g.op i).isPhi = (f.op i).isPhi) : g.afterPhis b = f.afterPhis b := by
  rw [afterPhis, hbody]
  exact dropWhile_isPhi_congr hop

namespace Arranged

theorem lt (hf : f.Arranged) {i : InstId} (hi : i ∈ f.body b) : i < f.insts.size :=
  owner_lt (hf.owner_eq b i hi)

theorem addBlock (hf : f.Arranged) (name : String) : (f.addBlock name).2.Arranged where
  live c hc := by
    rw [layout_addBlock]
    rw [blocks_size_addBlock] at hc
    rcases Nat.lt_succ_iff_lt_or_eq.mp hc with hlt | rfl
    · exact List.mem_append_left _ (hf.live c hlt)
    · exact List.mem_append_right _ (List.mem_singleton.mpr rfl)
  owned i hi := by
    obtain ⟨c, hc, hown⟩ := hf.owned i hi
    exact ⟨c, by rw [blocks_size_addBlock]; exact Nat.lt_succ_of_lt hc, hown⟩
  owner_eq c i hi := by
    rw [body_addBlock] at hi
    exact hf.owner_eq c i hi
  terminator_last c i hi := by
    rw [body_addBlock] at hi
    exact hf.terminator_last c i hi
  phi_first c i hi := by
    rw [afterPhis_congr (body_addBlock f name c) fun _ _ => rfl] at hi
    exact hf.phi_first c i hi

theorem addConstant (hf : f.Arranged) (t : TyId) (l : Literal) : (f.addConstant t l).2.Arranged :=
  ⟨hf.live, hf.owned, hf.owner_eq, hf.terminator_last, hf.phi_first⟩

theorem insertInst (hf : f.Arranged) (hb : b < f.blocks.size) {pos : Nat} {d : Draft}
    (hlast : ∀ i ∈ ((f.insertInst b pos d).2.body b).dropLast,
      ((f.insertInst b pos d).2.op i).isTerminator = false)
    (hphi : ∀ i ∈ (f.insertInst b pos d).2.afterPhis b,
      ((f.insertInst b pos d).2.op i).isPhi = false) : (f.insertInst b pos d).2.Arranged := by
  have hinst {c : BlockId} {i : InstId} (hi : i ∈ f.body c) :
      (f.insertInst b pos d).2.inst i = f.inst i := by
    rw [inst_insertInst, if_neg (Nat.ne_of_lt (hf.lt hi))]
  have hbody {c : BlockId} (hc : c ≠ b) : (f.insertInst b pos d).2.body c = f.body c := by
    rw [body_insertInst _ _ _ hb, if_neg hc]
  constructor
  · intro c hc
    rw [blocks_size_insertInst] at hc
    rw [layout_insertInst]
    exact hf.live c hc
  · intro i hi
    rw [insts_size_insertInst] at hi
    rw [blocks_size_insertInst, owner, inst_insertInst]
    split
    · exact ⟨b, hb, rfl⟩
    · rename_i hne
      exact hf.owned i (Nat.lt_of_le_of_ne (Nat.le_of_lt_succ hi) hne)
  · intro c i hi
    by_cases hc : c = b
    · subst hc
      rw [body_insertInst _ _ _ hb, if_pos rfl, List.mem_append, List.mem_cons] at hi
      have hold (hi : i ∈ f.body c) : (f.insertInst c pos d).2.owner i = some c := by
        rw [owner, hinst hi]
        exact hf.owner_eq c i hi
      rcases hi with hi | rfl | hi
      · exact hold (List.mem_of_mem_take hi)
      · rw [owner, inst_insertInst, if_pos rfl]
      · exact hold (List.mem_of_mem_drop hi)
    · rw [hbody hc] at hi
      rw [owner, hinst hi]
      exact hf.owner_eq c i hi
  · intro c i hi
    by_cases hc : c = b
    · exact hc ▸ hlast i (hc ▸ hi)
    · rw [hbody hc] at hi
      rw [op, hinst ((List.dropLast_sublist _).mem hi)]
      exact hf.terminator_last c i hi
  · intro c i hi
    by_cases hc : c = b
    · exact hphi i (hc ▸ hi)
    · rw [afterPhis_congr (hbody hc) fun j hj => by rw [op, hinst hj, op]] at hi
      rw [op, hinst (mem_body_of_afterPhis hi)]
      exact hf.phi_first c i hi

/-- In a block without a terminator no instruction is one. -/
theorem not_isTerminator (hf : f.Arranged) (hopen : f.terminator? b = none) {i : InstId}
    (hi : i ∈ f.body b) : (f.op i).isTerminator = false := by
  rcases List.eq_nil_or_concat' (f.body b) with hnil | ⟨front, t, hbody⟩
  · rw [hnil] at hi
    exact absurd hi List.not_mem_nil
  · rw [hbody, List.mem_append, List.mem_singleton] at hi
    rcases hi with hi | rfl
    · exact hf.terminator_last b i (by rwa [hbody, List.dropLast_concat])
    · simpa [terminator?, hbody] using hopen

theorem appendInst (hf : f.Arranged) (hb : b < f.blocks.size) (hopen : f.terminator? b = none)
    {d : Draft} (hphi : d.op.isPhi = false) : (f.appendInst b d).2.Arranged := by
  have hbody : (f.appendInst b d).2.body b = f.body b ++ [f.insts.size] := by
    rw [body_appendInst _ _ hb, if_pos rfl]
  have hold {i : InstId} (hi : i ∈ f.body b) : (f.appendInst b d).2.op i = f.op i := by
    rw [op, inst_appendInst, if_neg (Nat.ne_of_lt (hf.lt hi)), op]
  have hnew : (f.appendInst b d).2.op f.insts.size = d.op := by
    rw [op, inst_appendInst, if_pos rfl]
  refine hf.insertInst hb (fun i hi => ?_) fun i hi => ?_
  · change i ∈ ((f.appendInst b d).2.body b).dropLast at hi
    rw [hbody, List.dropLast_concat] at hi
    exact (congrArg Op.isTerminator (hold hi)).trans (hf.not_isTerminator hopen hi)
  · change i ∈ (f.appendInst b d).2.afterPhis b at hi
    change ((f.appendInst b d).2.op i).isPhi = false
    have hafter : (f.body b).dropWhile (fun i => ((f.appendInst b d).2.op i).isPhi) =
        f.afterPhis b := dropWhile_isPhi_congr fun i hi => by rw [hold hi]
    rw [afterPhis, hbody, List.dropWhile_append, hafter] at hi
    split at hi
    · have hmem : i = f.insts.size := List.mem_singleton.mp ((List.dropWhile_sublist _).mem hi)
      rw [hmem, hnew, hphi]
    · rcases List.mem_append.mp hi with hi | hi
      · rw [hold (mem_body_of_afterPhis hi)]
        exact hf.phi_first b i hi
      · rw [List.mem_singleton.mp hi, hnew, hphi]

theorem insertPhi (hf : f.Arranged) (hb : b < f.blocks.size) (incoming : List (Operand × BlockId))
    (t : TyId) (name : Option String) : (f.insertPhi b incoming t name).2.Arranged := by
  have hsplit := f.phis_append_afterPhis b
  have hbody : (f.insertPhi b incoming t name).2.body b =
      f.phis b ++ f.insts.size :: f.afterPhis b := by
    rw [Func.insertPhi, body_insertInst _ _ _ hb, if_pos rfl, ← hsplit, List.take_left,
      List.drop_left]
  have hold {i : InstId} (hi : i ∈ f.body b) :
      (f.insertPhi b incoming t name).2.op i = f.op i := by
    rw [op, Func.insertPhi, inst_insertInst, if_neg (Nat.ne_of_lt (hf.lt hi)), op]
  have hnew : (f.insertPhi b incoming t name).2.op f.insts.size = .phi incoming := by
    rw [op, Func.insertPhi, inst_insertInst, if_pos rfl]
  have hphis {i : InstId} (hi : i ∈ f.phis b ++ [f.insts.size]) :
      ((f.insertPhi b incoming t name).2.op i).isPhi = true := by
    rcases List.mem_append.mp hi with hi | hi
    · rw [hold (hsplit ▸ List.mem_append_left _ hi)]
      exact isPhi_of_mem_phis hi
    · rw [List.mem_singleton.mp hi, hnew]
      rfl
  refine hf.insertInst hb (fun i hi => ?_) fun i hi => ?_
  · change i ∈ ((f.insertPhi b incoming t name).2.body b).dropLast at hi
    change ((f.insertPhi b incoming t name).2.op i).isTerminator = false
    rw [hbody, List.append_cons] at hi
    have hcases : i ∈ f.phis b ++ [f.insts.size] ∨ i ∈ (f.body b).dropLast := by
      rw [← hsplit]
      rcases List.eq_nil_or_concat' (f.afterPhis b) with hnil | ⟨front, t, hafter⟩
      · rw [hnil, List.append_nil] at hi
        exact .inl ((List.dropLast_sublist _).mem hi)
      · rw [hafter, ← List.append_assoc, List.dropLast_concat] at hi ⊢
        rcases List.mem_append.mp hi with hi | hi
        · exact .inl hi
        · exact .inr (List.mem_append_right _ hi)
    rcases hcases with hi | hi
    · exact Op.not_isTerminator_of_isPhi (hphis hi)
    · rw [hold ((List.dropLast_sublist _).mem hi)]
      exact hf.terminator_last b i hi
  · change i ∈ (f.insertPhi b incoming t name).2.afterPhis b at hi
    change ((f.insertPhi b incoming t name).2.op i).isPhi = false
    rw [afterPhis, hbody, List.append_cons, List.dropWhile_append_of_pos fun j hj => hphis hj] at hi
    have hi := (List.dropWhile_sublist _).mem hi
    rw [hold (mem_body_of_afterPhis hi)]
    exact hf.phi_first b i hi

theorem addIncoming (hf : f.Arranged) (i : InstId) (v : Operand) (pred : BlockId) :
    (f.addIncoming i v pred).Arranged := by
  have howner (j : InstId) : (f.addIncoming i v pred).owner j = f.owner j := f.owner_modifyOp i j _
  have hwidens := f.widens_addIncoming i v pred
  constructor
  · exact hf.live
  · intro j hj
    rw [howner]
    exact hf.owned j (by rwa [Func.addIncoming, insts_size_modifyOp] at hj)
  · intro c j hj
    rw [howner]
    exact hf.owner_eq c j hj
  · intro c j hj
    rw [(hwidens j).isTerminator_eq]
    exact hf.terminator_last c j hj
  · intro c j hj
    have hafter : (f.addIncoming i v pred).afterPhis c = f.afterPhis c :=
      afterPhis_congr rfl fun k _ => (hwidens k).isPhi_eq
    rw [hafter] at hj
    rw [(hwidens j).isPhi_eq]
    exact hf.phi_first c j hj

end Arranged

end Func

/-! ## The invariant -/

namespace Site

/-- What construction keeps. -/
structure Built (s : Site) : Prop where
  distinct : s.types.Distinct
  closed : s.types.Closed
  tys_lt : ∀ t ∈ s.func.tys, t < s.types.size
  accepts : ∀ i < s.func.insts.size, s.Accepts (s.func.op i) (s.func.inst i).ty
  arranged : s.func.Arranged

variable {s s' : Site}

theorem Fresh.built (hs : s.Fresh) : s.Built where
  distinct := hs.distinct
  closed := hs.closed
  tys_lt := hs.tys_lt
  accepts i hi := by
    rw [hs.declared] at hi
    exact absurd hi (Nat.not_lt_zero _)
  arranged := by
    rw [hs.declared]
    exact Func.arranged_declare _ _ _

namespace Built

/-- A new instruction comes to a site with its type. -/
theorem insertInst (hs : s.Built) {b : BlockId} {pos : Nat} {d : Func.Draft}
    (halloc : ∀ t a, d.op = .alloca t a → t < s.types.size) (hty : s.Accepts d.op d.ty)
    (harr : (s.func.insertInst b pos d).2.Arranged) :
    Built ⟨s.types, (s.func.insertInst b pos d).2⟩ := by
  have hk : s.KeepsTypes ⟨s.types, (s.func.insertInst b pos d).2⟩ :=
    ⟨.refl _, (s.func.below_insertInst b pos d).keepsTypes⟩
  obtain ⟨hret, hparams, hconsts, hinsts⟩ := Func.forall_mem_tys.mp hs.tys_lt
  have hlt {i : InstId} (hi : i < (s.func.insertInst b pos d).2.insts.size)
      (hne : i ≠ s.func.insts.size) : i < s.func.insts.size := by
    rw [Func.insts_size_insertInst] at hi
    exact Nat.lt_of_le_of_ne (Nat.le_of_lt_succ hi) hne
  refine ⟨hs.distinct, hs.closed, Func.forall_mem_tys.mpr ⟨hret, hparams, hconsts, ?_⟩, ?_, harr⟩
  · intro i hi
    rw [Func.op, Func.inst_insertInst]
    by_cases hne : i = s.func.insts.size
    · rw [if_pos hne]
      exact ⟨TypeTable.lookup_lt hty.choose_spec.2, halloc⟩
    · rw [if_neg hne]
      exact hinsts i (hlt hi hne)
  · intro i hi
    rw [Func.op, Func.inst_insertInst]
    by_cases hne : i = s.func.insts.size
    · rw [if_pos hne]
      exact hty.keepsTypes hs.tys_lt hk
    · rw [if_neg hne]
      exact (hs.accepts i (hlt hi hne)).keepsTypes hs.tys_lt hk

theorem addIncoming (hs : s.Built) {i : InstId} {v : Operand} (pred : BlockId)
    (hi : i < s.func.insts.size) (hphi : (s.func.op i).isPhi = true)
    (hv : s.func.operandTy v = .ok (s.func.inst i).ty) :
    Built ⟨s.types, s.func.addIncoming i v pred⟩ := by
  have hk : s.KeepsTypes ⟨s.types, s.func.addIncoming i v pred⟩ :=
    ⟨.refl _, (s.func.grows_addIncoming i v pred).keepsTypes⟩
  obtain ⟨hret, hparams, hconsts, hinsts⟩ := Func.forall_mem_tys.mp hs.tys_lt
  have hsize : (s.func.addIncoming i v pred).insts.size = s.func.insts.size :=
    s.func.insts_size_modifyOp i _
  have htyp (j : InstId) : ((s.func.addIncoming i v pred).inst j).ty = (s.func.inst j).ty :=
    s.func.ty_modifyOp i j _
  refine ⟨hs.distinct, hs.closed, Func.forall_mem_tys.mpr ⟨hret, hparams, hconsts, ?_⟩, ?_,
    hs.arranged.addIncoming i v pred⟩
  · intro j hj
    rw [hsize] at hj
    rw [htyp]
    refine ⟨(hinsts j hj).1, fun t a hop => (hinsts j hj).2 t a ?_⟩
    have hw := s.func.widens_addIncoming i v pred j
    have hno : (s.func.op j).isPhi = false := by rw [← hw.isPhi_eq, hop]; rfl
    rw [← hw.eq_of_not_isPhi hno, hop]
  · intro j hj
    rw [hsize] at hj
    obtain ⟨ty, hty, hlook⟩ := (hs.accepts j hj).keepsTypes hs.tys_lt hk
    refine ⟨ty, ?_, by rw [htyp]; exact hlook⟩
    rw [htyp, Func.addIncoming, s.func.op_modifyOp hi]
    by_cases hij : i = j
    · -- The entries of the phi and the new one have the type of the phi.
      subst hij
      rw [if_pos rfl]
      cases hop : s.func.op i with
      | phi incoming =>
        rw [hop] at hty
        obtain ⟨hall, hty⟩ := Typing.resultTy_phi.mp hty
        refine Typing.resultTy_phi.mpr ⟨fun w hw => ?_, hty⟩
        rw [List.map_append, List.mem_append] at hw
        rcases hw with hw | hw
        · exact hall w hw
        · rw [List.mem_singleton.mp hw]
          exact hk.func.operandTy_eq v _ hv
      | _ =>
        rw [hop] at hphi
        cases hphi
    · rw [if_neg hij]
      exact hty

theorem edit (hs : s.Built) (h : s.Edit s') : s'.Built := by
  have hkeep {i : InstId} (hi : i < s.func.insts.size) :=
    (hs.accepts i hi).keepsTypes hs.tys_lt h.keepsTypes
  cases h with
  | intern ty hty =>
    exact ⟨TypeTable.distinct_insert hs.distinct ty, TypeTable.closed_insert hs.closed hty,
      fun t ht => Nat.lt_of_lt_of_le (hs.tys_lt t ht) (s.types.extends_insert ty).size_le,
      fun i hi => hkeep hi, hs.arranged⟩
  | block name =>
    exact ⟨hs.distinct, hs.closed, hs.tys_lt, fun i hi => hkeep hi, hs.arranged.addBlock name⟩
  | constant t l ht =>
    exact ⟨hs.distinct, hs.closed, Func.forall_mem_tys_addConstant hs.tys_lt ht l,
      fun i hi => hkeep hi, hs.arranged.addConstant t l⟩
  | append here d hhere hopen hphi halloc hty =>
    exact hs.insertInst halloc hty (hs.arranged.appendInst hhere hopen hphi)
  | phi here incoming t name hhere hty =>
    exact hs.insertInst (fun _ _ h => by cases h) hty
      (hs.arranged.insertPhi hhere incoming t name)
  | incoming i v pred hi hphi hv => exact hs.addIncoming pred hi hphi hv

theorem edits (hs : s.Built) (h : s.Edits s') : s'.Built := by
  induction h with
  | refl => exact hs
  | tail _ he ih => exact ih.edit he

end Built

end Site

/-! ## What calls do -/

namespace Build

variable {α β : Type} {s : Site}

/-- A computation does a chain of edits, and none to the function when it fails. -/
def Edits (x : Build α) (s : Site) : Prop :=
  s.Edits (x s).2 ∧ ∀ e, (x s).1 = .error e → (x s).2.func = s.func

theorem map_eq (x : Build α) (g : α → β) (s : Site) :
    (x >>= fun a => pure (g a)) s = ((x s).1.map g, (x s).2) := by
  rw [bind_eq]
  rcases x s with ⟨_ | a, t⟩ <;> rfl

theorem Edits.map {x : Build α} (h : x.Edits s) (g : α → β) :
    Edits (x >>= fun a => pure (g a)) s := by
  rw [Edits, map_eq]
  refine ⟨h.1, fun e he => ?_⟩
  cases hx : (x s).1 with
  | error e' => exact h.2 e' hx
  | ok a =>
    rw [hx] at he
    cases he

theorem Edits.discard {x : Build α} (h : x.Edits s) : Edits (discard x : Build Unit) s :=
  h.map fun _ => ()

/-- A part that leaves the function alone may come first. -/
theorem Edits.bind {x : Build α} {k : α → Build β} (h : s.Edits (x s).2)
    (hfunc : (x s).2.func = s.func) (hk : ∀ a, (x s).1 = .ok a → (k a).Edits (x s).2) :
    Edits (x >>= k) s := by
  rw [Edits, bind_eq]
  rcases hx : x s with ⟨e | a, t⟩
  · rw [hx] at h hfunc
    exact ⟨h, fun _ _ => hfunc⟩
  · rw [hx] at h hfunc hk
    obtain ⟨hedits, herror⟩ := hk a rfl
    exact ⟨h.trans hedits, fun e he => (herror e he).trans hfunc⟩

theorem edits_same {x : Build α} (h : (x s).2 = s) : x.Edits s := by
  rw [Edits, h]
  exact ⟨.refl, fun _ _ => rfl⟩

theorem edits_single {x : Build α} {a : α} {s' : Site} (h : x s = (.ok a, s')) (he : s.Edit s') :
    x.Edits s := by
  rw [Edits, h]
  exact ⟨.single he, fun e he => by cases he⟩

theorem edits_emit (hs : s.Built) {here : BlockId} {op : Op} {declared : Option TyId}
    {name : Option String} (hphi : op.isPhi = false)
    (halloc : ∀ t a, op = .alloca t a → t < s.types.size)
    (hd : ∀ t, declared = some t → t < s.types.size) : (emit here op declared name).Edits s := by
  rcases emit_cases here op declared name s with ⟨e, he⟩ | ⟨ty, hhere, hopen, hty, he⟩
  · exact edits_same (by rw [he])
  · have hintern : s.Edit ⟨(s.types.insert ty).2, s.func⟩ :=
      .intern ty (Typing.components_resultTy_lt hs.closed halloc hd hty)
    have haccepts : Site.Accepts ⟨(s.types.insert ty).2, s.func⟩ op (s.types.insert ty).1 :=
      ⟨ty, Typing.resultTy_stored hs.distinct hs.closed hs.tys_lt hd hty,
        s.types.lookup_insert ty⟩
    have hle := (s.types.extends_insert ty).size_le
    rw [Edits, he]
    refine ⟨.tail (.single hintern) ?_, fun e he => by cases he⟩
    exact .append here ⟨op, (s.types.insert ty).1, name⟩ hhere hopen hphi
      (fun t a h => Nat.lt_of_lt_of_le (halloc t a h) hle) haccepts

theorem edits_value (hs : s.Built) {here : BlockId} {op : Op} {name : String}
    (hphi : op.isPhi = false) (halloc : ∀ t a, op = .alloca t a → t < s.types.size) :
    (value here op name).Edits s :=
  (edits_emit hs hphi halloc (by nofun)).map Operand.inst

theorem edits_valueOf (hs : s.Built) {here : BlockId} {op : Op} {t : TyId} {name : String}
    (hphi : op.isPhi = false) (halloc : ∀ t a, op = .alloca t a → t < s.types.size)
    (ht : t < s.types.size) : (valueOf here op t name).Edits s :=
  (edits_emit hs hphi halloc fun _ h => Option.some.inj h ▸ ht).map Operand.inst

theorem edits_effect (hs : s.Built) {here : BlockId} {op : Op} (hphi : op.isPhi = false)
    (halloc : ∀ t a, op = .alloca t a → t < s.types.size) : (effect here op).Edits s :=
  (edits_emit hs hphi halloc (by nofun)).map fun _ => ()

/-- Interning a type without components, and a part that uses its handle. -/
theorem Edits.intern_bind (hs : s.Built) {sh : Shape} (hsh : sh.components = [])
    {k : TyId → Build α} (hk : ∀ s' t, Site.Built s' → t < s'.types.size → (k t).Edits s') :
    Edits (intern sh >>= k) s := by
  have he : s.Edit ⟨(s.types.intern sh).2, s.func⟩ := .intern sh.unnamed fun c hc => by
    rw [show sh.unnamed.shape.components = [] from hsh] at hc
    exact absurd hc List.not_mem_nil
  refine .bind (.single he) rfl fun t ht => ?_
  cases ht
  exact hk _ _ (hs.edit he) (s.types.intern_lt sh)

theorem Edits.site_bind {k : Site → Build α} (h : (k s).Edits s) : Edits (site >>= k) s := h

theorem edits_constant (hs : s.Built) (sc : Scalar) (l : Literal) : (constant sc l).Edits s :=
  .intern_bind hs rfl fun s' t _ ht => edits_single (s := s') rfl (.constant t l ht)

theorem edits_loadVector (hs : s.Built) {here : BlockId} {p : Operand} {lanes : Nat}
    {name : String} : (loadVector here p lanes name).Edits s := by
  refine .bind .refl rfl fun t _ => .site_bind ?_
  dsimp only
  split
  · exact edits_same rfl
  · exact .intern_bind hs rfl fun s' u hs' hu =>
      edits_valueOf hs' rfl (fun _ _ h => by cases h) hu

theorem edits_splat (hs : s.Built) {here : BlockId} {v : Operand} {lanes : Nat} {name : String} :
    (splat here v lanes name).Edits s := by
  refine .bind .refl rfl fun t _ => .site_bind ?_
  dsimp only
  split
  · exact edits_same rfl
  · exact .intern_bind hs rfl fun s' u hs' hu =>
      edits_valueOf hs' rfl (fun _ _ h => by cases h) hu

theorem edits_phi (hs : s.Built) {here : BlockId} {t : TyId} {incoming : List (Operand × BlockId)}
    {name : String} (hhere : here < s.func.blocks.size) (ht : t < s.types.size) :
    (phi here t incoming name).Edits s := by
  rw [Edits, phi, site_bind]
  cases hty : Typing.resultTy s.types s.func (.phi incoming) (some t) with
  | error e => exact edits_same (x := check (.error e) >>= _) rfl
  | ok ty =>
    -- The declared type is in the table, so that interning changes nothing.
    have hd : ∀ u, some t = some u → u < s.types.size := fun u hu => Option.some.inj hu ▸ ht
    have hstored := Typing.resultTy_stored hs.distinct hs.closed hs.tys_lt hd hty
    have hlook := s.types.lookup_insert ty
    obtain ⟨_, rfl⟩ := Typing.resultTy_phi.mp hty
    rw [hs.distinct.insert_ty ht] at hstored hlook
    have hrun : (do
        let u ← internTy (s.types.ty t)
        return Operand.inst (← edit (·.insertPhi here incoming u (some name))) : Build Operand) s =
        (.ok (.inst s.func.insts.size),
          ⟨s.types, (s.func.insertPhi here incoming t (some name)).2⟩) := by
      rw [bind_eq, internTy, hs.distinct.insert_ty ht]
      rfl
    exact edits_single hrun (.phi here incoming t (some name) hhere ⟨_, hstored, hlook⟩)

theorem edits_addIncoming {target v : Operand} {pred : BlockId}
    (htarget : ∀ i, target = .inst i → i < s.func.insts.size) :
    (addIncoming target v pred).Edits s := by
  cases target with
  | inst i =>
    rw [Edits, addIncoming, site_bind]
    refine Edits.bind .refl rfl fun t ht => ?_
    change Edits _ s
    split
    · exact edits_same rfl
    · rename_i hsame
      rw [ne_eq, Decidable.not_not] at hsame
      split
      · rename_i hphi
        exact edits_single (s := s) rfl
          (.incoming i v pred (htarget i rfl) hphi (hsame ▸ ht))
      · exact edits_same rfl
  | param k => exact edits_same rfl
  | const c => exact edits_same rfl

/-- A call does a chain of edits, and none to the function when it fails. -/
theorem Action.edits_run (hs : s.Built) (a : Action) (ha : a.HandlesExist s) : a.run.Edits s := by
  cases a with
  | intern ty => exact (edits_single (x := internTy ty) rfl (.intern ty ha)).discard
  | block name => exact (edits_single (x := Build.block name) rfl (.block name)).discard
  | constant sc l => exact (edits_constant hs sc l).discard
  | param index => exact (Edits.bind .refl rfl fun _ _ => edits_same rfl).discard
  | alloca here t align name =>
    exact (edits_value hs rfl fun u a h => by cases h; exact ha).discard
  | loadVector here p lanes name => exact (edits_loadVector hs).discard
  | splat here v lanes name => exact (edits_splat hs).discard
  | phi here t incoming name => exact (edits_phi hs ha.1 ha.2).discard
  | addIncoming target v pred => exact edits_addIncoming ha
  | bitcast here v t name => exact (edits_valueOf hs rfl (by nofun) ha).discard
  | call here callee args t name =>
    exact ((edits_emit hs rfl (by nofun) fun _ h => Option.some.inj h ▸ ha).map
      Operand.inst).discard
  | load | gep | binary | icmp | fcmp | select =>
    exact (edits_value hs rfl (by nofun)).discard
  | store | br | condBr | ret => exact edits_effect hs rfl (by nofun)

end Build

namespace Site

open Build (Action)

variable {s : Site}

theorem Built.build (hs : s.Built) {as : List Action} (has : s.Admits as) :
    s.Edits (s.build as) := by
  induction as generalizing s with
  | nil => exact .refl
  | cons a as ih =>
    have ha := (a.edits_run hs has.1).1
    exact ha.trans (ih (hs.edits ha) has.2)

end Site

/-! ## The verifier -/

namespace Defect

/-- The defects that checked construction rules out. -/
def isRuledOut : Defect → Bool
  | .misplacedTerminator _ | .misplacedPhi _ | .blockMismatch _ | .invalidOperand _ | .type _ _ =>
    true
  | _ => false

end Defect

namespace Verify

/-- A check that fails reports a defect that is not ruled out. -/
def Spares (r : Except Defect Unit) : Prop := ∀ d, r = .error d → d.isRuledOut = false

theorem spares_ok {r : Except Defect Unit} (h : r = .ok ()) : Spares r := by
  rw [h]
  exact fun d hd => by cases hd

theorem spares_require {ok : Bool} {d : Defect} (hd : d.isRuledOut = false) :
    Spares (require ok d) := by
  intro d' h
  cases ok with
  | true => cases h
  | false =>
    cases h
    exact hd

theorem Spares.bind {r : Except Defect Unit} {k : Unit → Except Defect Unit} (hr : Spares r)
    (hk : Spares (k ())) : Spares (r >>= k) := by
  cases r with
  | ok u => exact hk
  | error d => exact hr

theorem spares_forAll {α : Type} {check : α → Except Defect Unit} :
    ∀ {as : List α}, (∀ a ∈ as, Spares (check a)) → Spares (forAll check as)
  | [], _ => spares_ok rfl
  | a :: _, h => (h a List.mem_cons_self).bind
      (spares_forAll fun b hb => h b (List.mem_cons_of_mem a hb))

variable {tt : TypeTable} {f : Func}

theorem spares_checkBlock (hf : f.Arranged) (b : BlockId) : Spares (checkBlock f b) := by
  unfold checkBlock
  cases ht : f.terminator? b with
  | none =>
    intro d hd
    cases hd
    rfl
  | some last =>
    obtain ⟨⟨front, hbody⟩, _⟩ := Func.terminator?_eq_some.mp ht
    have hlast : ∀ i ∈ f.body b, (f.op i).isTerminator = true → i = last := by
      intro i hi hterm
      rw [hbody, List.mem_append, List.mem_singleton] at hi
      refine hi.resolve_left fun hfront => ?_
      have := hf.terminator_last b i (by rwa [hbody, List.dropLast_concat])
      exact absurd (this.symm.trans hterm) Bool.false_ne_true
    have hseq : checkSequence f b (f.block b).name last false (f.body b) = .ok () :=
      checkSequence_of (fun i hi => ⟨hf.owner_eq b i hi, hlast i hi⟩) (by nofun) (hf.phi_first b)
    exact (spares_ok hseq).bind (spares_require rfl)

theorem spares_checkUses (g : FlowGraph) (dom : DomTree) (b : BlockId) (name : String)
    (i : InstId) : Spares (checkUses f g dom b name i) := by
  unfold checkUses
  split
  · exact (spares_require rfl).bind (spares_require rfl)
  · exact spares_require rfl

theorem spares_checkEntry (g : FlowGraph) : Spares (checkEntry f g) := by
  unfold checkEntry
  split
  · exact spares_require rfl
  · exact spares_ok rfl

end Verify

namespace Site

open Verify

variable {s : Site}

theorem Built.operandExists (hs : s.Built) {i : InstId} (hi : i < s.func.insts.size) :
    ∀ v ∈ (s.func.op i).operands, Verify.operandExists s.func v = true := by
  intro v hv
  obtain ⟨ty, hty, _⟩ := hs.accepts i hi
  obtain ⟨t, ht⟩ := Typing.exists_operandTy_of_resultTy hty v hv
  refine Func.operandExists_of_operandTy ht fun j hj => ?_
  subst hj
  obtain ⟨b, hb, hown⟩ := hs.arranged.owned j (Func.lt_of_operandTy ht).1
  exact ⟨b, hs.arranged.live b hb, hown⟩

theorem Built.spares_checkInst (hs : s.Built) (g : FlowGraph) (dom : DomTree) {b : BlockId}
    {i : InstId} (hi : i ∈ s.func.body b) : Spares (checkInst s.types s.func g dom b i) := by
  have hlt := hs.arranged.lt hi
  refine (spares_ok (require_eq_ok.mpr (List.all_eq_true.mpr (hs.operandExists hlt)))).bind
    ((spares_checkUses g dom b _ i).bind (spares_ok ?_))
  obtain ⟨ty, hty, hlook⟩ := hs.accepts i hlt
  rw [Func.op] at hty
  simp only [checkType, hty]
  exact require_eq_ok.mpr (by rw [hlook]; exact beq_self_eq_true _)

theorem Built.spares_checkFunc (hs : s.Built) : Spares (checkFunc s.types s.func) := by
  unfold checkFunc
  split
  · exact spares_ok rfl
  · exact (spares_forAll fun b _ => spares_checkBlock hs.arranged b).bind
      ((spares_checkEntry _).bind
        (spares_forAll fun b _ => spares_forAll fun i hi => hs.spares_checkInst _ _ hi))

open Build (Action)

/-- After any calls on a declared function, every instruction has the type that the verifier asks
for, and keeps it; the verifier reports none of the defects that construction rules out; and a call
that fails leaves the function as it was. -/
theorem build_agrees (hs : s.Fresh) {as : List Action} (has : s.Admits as) :
    (∀ i < (s.build as).func.insts.size,
      (s.build as).Accepts ((s.build as).func.op i) ((s.build as).func.inst i).ty) ∧
    (∀ later, (s.build as).Admits later → ∀ i < (s.build as).func.insts.size,
      (((s.build as).build later).func.inst i).ty = ((s.build as).func.inst i).ty) ∧
    (∀ e, (s.build as).func.verify (s.build as).types = .error e → e.defect.isRuledOut = false) ∧
    ∀ a : Action, a.HandlesExist (s.build as) → ∀ e, (a.run (s.build as)).1 = .error e →
      ((s.build as).after a).func = (s.build as).func := by
  have hbuilt : (s.build as).Built := hs.built.edits (hs.built.build has)
  refine ⟨hbuilt.accepts, fun later hlater i hi => ?_, fun e he => ?_, fun a ha e he => ?_⟩
  · have hk := (hbuilt.build hlater).keepsTypes
    exact (Func.lt_of_operandTy (hk.func.operandTy_eq _ _ (Func.operandTy_inst hi))).2
  · unfold Func.verify at he
    cases hd : checkFunc (s.build as).types (s.build as).func with
    | ok u =>
      rw [hd] at he
      cases he
    | error d =>
      rw [hd] at he
      cases he
      exact hbuilt.spares_checkFunc d hd
  · exact (a.edits_run hbuilt ha).2 e he

/-- A function to be built, over the types of integers and truth values. -/
def counting : Site :=
  ⟨⟨#[⟨none, .void⟩, ⟨none, .scalar .i64⟩, ⟨none, .scalar .bool⟩]⟩,
    .declare "counting" #[⟨"n", 1, false⟩] 0⟩

/-- Calls that build a loop.  The store comes too late for its block, and the phi and its second
entry are added to a block that has instructions already. -/
def countingCalls : List Action :=
  [.block "entry", .block "loop", .constant .i64 (.int 0), .br 0 1, .store 0 (.const 0) (.param 0),
    .binary 1 .add (.const 0) (.param 0) "next", .phi 1 1 [(.const 0, 0)] "i",
    .addIncoming (.inst 2) (.inst 1) 1, .icmp 1 .ult (.inst 2) (.param 0) "more",
    .condBr 1 (.inst 3) 1 2, .block "exit", .ret 2 none]

theorem build_agrees_counting :
    counting.Fresh ∧ counting.Admits countingCalls ∧
    (counting.build countingCalls).Accepts (.phi [(.const 0, 0), (.inst 1, 1)]) 1 ∧
    ∀ e, (counting.build countingCalls).func.verify (counting.build countingCalls).types = .error e →
      e.defect.isRuledOut = false := by
  have hfresh : counting.Fresh := ⟨by decide, by decide, by decide, by decide⟩
  have hadmits : counting.Admits countingCalls := by
    refine ⟨trivial, trivial, trivial, trivial, trivial, trivial, ⟨by decide +kernel, by decide +kernel⟩,
      ?_, trivial, trivial, trivial, trivial, trivial⟩
    intro i hi
    cases hi
    decide +kernel
  have hop : (counting.build countingCalls).func.op 2 = .phi [(.const 0, 0), (.inst 1, 1)] := by
    decide +kernel
  have hty : ((counting.build countingCalls).func.inst 2).ty = 1 := by decide +kernel
  obtain ⟨haccepts, _, hverify, _⟩ := build_agrees hfresh hadmits
  have hphi := haccepts 2 (by decide +kernel)
  rw [hop, hty] at hphi
  exact ⟨hfresh, hadmits, hphi, hverify⟩

end Site

end LoopNest
