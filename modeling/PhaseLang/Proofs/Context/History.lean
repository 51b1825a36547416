import PhaseLang.Proofs.Php.Sessions
import Mathlib.Data.List.Induction

/-!
# The history of a cache

A context writes down what is put into its cache, so what a session does to the cache can be read
off the history: the cache is its replay, and no event stands before a load of the same name. Main
result: over whole sessions the loader is asked once for a name, and an entry changes only if a
type is added under its name.
-/

namespace PhaseLang

variable {c : Context} {loader : Option Loader}

/-! ## Bindings that grow -/

namespace Bindings

variable {α : Type}

theorem get?_insertAll_of_not_mem {name : String} {new : Bindings α} (absent : name ∉ names new) (bs : Bindings α) :
    (bs.insertAll new).get? name = bs.get? name := by
  induction new generalizing bs with
  | nil => rfl
  | cons entry new ih =>
    obtain ⟨other, absent⟩ := not_or.mp (mt List.mem_cons.mpr absent)
    have step : bs.insertAll (entry :: new) = (bs.insert entry.1 entry.2).insertAll new := rfl
    rw [step, ih absent, get?_insert, if_neg (Ne.symm other)]

theorem length_insertAll (new bs : Bindings α) : bs.length ≤ (bs.insertAll new).length := by
  have insert_le (name : String) (a : α) (bs : Bindings α) : bs.length ≤ (bs.insert name a).length := by
    have names : (names (bs.insert name a)).length = (addName (names bs) name).length := by rw [names_insert]
    unfold Bindings.names addName at names
    rw [List.length_map] at names
    rw [names]
    split <;> simp
  induction new generalizing bs with
  | nil => exact Nat.le_refl _
  | cons entry new ih => exact Nat.le_trans (insert_le entry.1 entry.2 bs) (ih _)

end Bindings

/-! ## Events -/

variable {key : String}

namespace CacheEvent

def name : CacheEvent → String
  | added name _ => name
  | loaded name _ => name

def loading? : CacheEvent → Option Loading
  | added _ _ => none
  | loaded _ loading => some loading

def type : CacheEvent → Ty
  | added _ type => type
  | loaded name loading =>
    match loading.result with
    | .ok (some type) => type
    | _ => .unknown (some (.ofQualified name))

def diagnostics : CacheEvent → List Diagnostic
  | added _ _ => []
  | loaded _ loading => loading.diagnostics

def entry (e : CacheEvent) : String × Ty := (e.name, e.type)

def replay (events : List CacheEvent) : Bindings Ty := Bindings.insertAll [] (events.map entry)

theorem replay_append (events later : List CacheEvent) :
    replay (events ++ later) = (replay events).insertAll (later.map entry) := by
  rw [replay, List.map_append, Bindings.insertAll_append, replay]

theorem get?_replay (events : List CacheEvent) (key : String) :
    (replay events).get? key = (events.reverse.find? (·.name = key)).map type := by
  induction events using List.reverseRecOn with
  | nil => rfl
  | append_singleton events e ih =>
    have last : replay (events ++ [e]) = (replay events).insert e.name e.type := replay_append events [e]
    rw [last, Bindings.get?_insert, List.reverse_append, List.reverse_singleton, List.singleton_append, List.find?_cons]
    by_cases same : e.name = key
    · simp only [same, if_true, decide_true, Option.map_some]
    · simp only [same, if_false, decide_false, ih]

variable {events : List CacheEvent}

theorem exists_of_get?_replay {t : Ty}
    (found : (replay events).get? key = some t) : ∃ e ∈ events, e.name = key := by
  rw [get?_replay] at found
  obtain ⟨e, he, -⟩ := Option.map_eq_some_iff.mp found
  have same := List.find?_some he
  exact ⟨e, List.mem_reverse.mp (List.mem_of_find?_eq_some he), of_decide_eq_true same⟩

theorem forall_of_get?_replay_eq_none
    (absent : (replay events).get? key = none) : ∀ e ∈ events, e.name ≠ key := by
  rw [get?_replay, Option.map_eq_none_iff, List.find?_eq_none] at absent
  intro e he same
  exact absent e (List.mem_reverse.mpr he) (decide_eq_true same)

end CacheEvent

/-! ## Contexts with their history -/

namespace Context

def ask (loader : Option Loader) (name : String) (nextId : Nat) : Loading :=
  match loader with
  | none => ⟨.ok none, nextId, []⟩
  | some loader => loader.load name nextId

def load (c : Context) (key : String) : CacheEvent := .loaded key (ask c.loader key c.nextId)

theorem fetch_types (c : Context) (key : String) : (c.fetch key).2.1.types = c.types.insert key (c.load key).type := by
  cases c.loader <;> rfl

theorem fetch_type (c : Context) (key : String) : (c.fetch key).1 = (c.load key).type := by
  cases c.loader <;> rfl

theorem fetch_history (c : Context) (key : String) : (c.fetch key).2.1.history = c.history ++ [c.load key] := by
  cases c.loader <;> rfl

theorem fetch_diagnostics (c : Context) (key : String) : (c.fetch key).2.2 = (c.load key).diagnostics := by
  cases c.loader <;> rfl

theorem getType_cases (c : Context) (name : String) :
    (∃ t, c.getType name = (t, c, [])) ∨
      c.types.get? (QualifiedName.key name) = none ∧ c.getType name = c.fetch (QualifiedName.key name) := by
  unfold getType
  dsimp only
  cases known : c.types.get? (QualifiedName.key name) with
  | some t => exact .inl ⟨t, rfl⟩
  | none => exact .inr ⟨rfl, rfl⟩

/-- A name that is not stored is loaded once, and what the load gives is stored under it. -/
theorem getType_absent {name : String} (absent : c.types.get? (QualifiedName.key name) = none) :
    (c.getType name).2.1.history = c.history ++ [c.load (QualifiedName.key name)] ∧
      (c.getType name).1 = (c.load (QualifiedName.key name)).type ∧
      (c.getType name).2.1.types.get? (QualifiedName.key name) = some (c.getType name).1 := by
  have asked : c.getType name = c.fetch (QualifiedName.key name) := by simp only [getType, absent]
  rw [asked, fetch_history, fetch_types, fetch_type, Bindings.get?_insert, if_pos rfl]
  exact ⟨rfl, rfl, rfl⟩

structure Kept (loader : Option Loader) (c : Context) : Prop where
  types : c.types = CacheEvent.replay c.history
  plain : ∀ e ∈ c.history, QualifiedName.key e.name = e.name
  /-- Nothing stands before a load of the same name. -/
  once : c.history.Pairwise fun before e => e.loading?.isSome → before.name ≠ e.name
  answered : ∀ e ∈ c.history, ∀ loading, e.loading? = some loading → ∃ nextId, loading = ask loader e.name nextId
  loader : c.loader = loader

namespace Kept

variable {loader : Option Loader} {c : Context}

theorem fresh (nextId : Nat) : Kept loader { loader, nextId } := ⟨rfl, nofun, .nil, nofun, rfl⟩

theorem withId (h : c.Kept loader) (nextId : Nat) : Kept loader { c with nextId } :=
  ⟨h.types, h.plain, h.once, h.answered, h.loader⟩

theorem fetch (h : c.Kept loader) (plain : QualifiedName.key key = key)
    (absent : c.types.get? key = none) : (c.fetch key).2.1.Kept loader where
  loader := h.loader
  types := by
    rw [fetch_types, fetch_history, CacheEvent.replay_append, h.types]
    rfl
  plain := by
    rw [fetch_history]
    intro e he
    rcases List.mem_append.mp he with he | he
    · exact h.plain e he
    · rw [List.mem_singleton.mp he]
      exact plain
  once := by
    rw [fetch_history, List.pairwise_append]
    refine ⟨h.once, List.pairwise_singleton _ _, fun before hb e he _ => ?_⟩
    rw [List.mem_singleton.mp he]
    rw [h.types] at absent
    exact CacheEvent.forall_of_get?_replay_eq_none absent before hb
  answered := by
    rw [fetch_history]
    intro e he loading found
    rcases List.mem_append.mp he with he | he
    · exact h.answered e he loading found
    · rw [List.mem_singleton.mp he] at found ⊢
      refine ⟨c.nextId, ?_⟩
      rw [← h.loader]
      exact (Option.some.inj found).symm

theorem lasting (loader : Option Loader) : Context.Lasting (Kept loader) := by
  intro c name h
  rcases c.getType_cases name with ⟨t, known⟩ | ⟨absent, asked⟩
  · rw [known]
    exact h
  · rw [asked]
    exact h.fetch (QualifiedName.plain_key name) absent

theorem addTypes (h : c.Kept loader) (types : Bindings Ty) : (c.addTypes types).Kept loader := by
  have added : ∀ e ∈ (types.map fun entry => (QualifiedName.key entry.1, entry.2)).map fun entry =>
      CacheEvent.added entry.1 entry.2, QualifiedName.key e.name = e.name ∧ e.loading? = none := by
    simp only [List.map_map, List.mem_map]
    rintro _ ⟨entry, -, rfl⟩
    exact ⟨QualifiedName.plain_key entry.1, rfl⟩
  refine ⟨?_, ?_, ?_, ?_, h.loader⟩
  · unfold Context.addTypes
    rw [CacheEvent.replay_append, h.types, List.map_map]
    exact congrArg _ (List.map_id' _).symm
  · intro e he
    exact (List.mem_append.mp he).elim (h.plain e) fun he => (added e he).1
  · refine List.pairwise_append.mpr ⟨h.once, ?_, ?_⟩
    · refine List.Pairwise.imp_of_mem (R := fun _ _ => True) ?_ (List.pairwise_of_forall fun _ _ => trivial)
      intro _ e _ he _ loads
      rw [(added e he).2] at loads
      cases loads
    · intro _ _ e he loads
      rw [(added e he).2] at loads
      cases loads
  · intro e he loading found
    rcases List.mem_append.mp he with he | he
    · exact h.answered e he loading found
    · rw [(added e he).2] at found
      cases found

theorem typeProgram (h : c.Kept loader) (program : List Stmt) : (typeProgram program c).context.Kept loader := by
  rw [typeProgram_context]
  exact ((Typer.Invariant.of_lasting (lasting loader)).stmts (fits_nodes _) (s := .start program c) h).addTypes _

theorem compile (h : c.Kept loader) (source file : String) (version : Nat) :
    (compile source file version c).context.Kept loader := by
  cases read : (readSource source file c.nextId).result with
  | error e =>
    rw [compile_of_violation version read]
    exact h
  | ok out =>
    obtain ⟨program, nextId⟩ := out
    rw [(compile_of_read version read).2]
    exact (Php.stmts_lasting (Php.lasting_of_context (lasting loader)) _ program ⟨_, []⟩
      ((h.withId nextId).typeProgram program)).2

theorem nodup (h : c.Kept loader) : (Bindings.names c.types).Nodup := by
  rw [h.types]
  exact Bindings.nodup_names_insertAll _ List.nodup_nil

end Kept

/-! ## What one operation adds -/

/-- Later the history is longer, and only names with the property `S` were added without asking the loader. -/
def Grows (S : String → Prop) (c c' : Context) : Prop :=
  ∃ events, c'.history = c.history ++ events ∧ ∀ e ∈ events, e.loading? = none → S e.name

namespace Grows

variable {S : String → Prop} {c c' : Context}

theorem refl (S : String → Prop) (c : Context) : Grows S c c := ⟨[], (List.append_nil _).symm, nofun⟩

theorem lasting (S : String → Prop) (c : Context) : Context.Lasting (Grows S c) := by
  rintro c' name ⟨events, grown, named⟩
  rcases c'.getType_cases name with ⟨t, known⟩ | ⟨-, asked⟩
  · rw [known]
    exact ⟨events, grown, named⟩
  · rw [asked]
    refine ⟨events ++ [c'.load (QualifiedName.key name)], ?_, fun e he => ?_⟩
    · rw [fetch_history, grown, List.append_assoc]
    · rcases List.mem_append.mp he with he | he
      · exact named e he
      · rw [List.mem_singleton.mp he]
        exact nofun

theorem addTypes (h : Grows S c c') {types : Bindings Ty} (names : ∀ entry ∈ types, S (QualifiedName.key entry.1)) :
    Grows S c (c'.addTypes types) := by
  obtain ⟨events, grown, named⟩ := h
  unfold Context.addTypes Grows
  dsimp only
  rw [grown, List.append_assoc]
  refine ⟨_, rfl, fun e he => ?_⟩
  rcases List.mem_append.mp he with he | he
  · exact named e he
  · simp only [List.map_map, List.mem_map] at he
    obtain ⟨entry, hentry, rfl⟩ := he
    exact fun _ => names entry hentry

theorem typeProgram (h : Grows S c c') {program : List Stmt}
    (names : ∀ d ∈ Declaration.ofStmts [] program, S (QualifiedName.key d.qualifiedName)) :
    Grows S c (typeProgram program c').context := by
  rw [typeProgram_context]
  refine ((Typer.Invariant.of_lasting (lasting S c)).stmts (fits_nodes _) (s := .start program c') h).addTypes ?_
  intro entry hentry
  have found := Bindings.get?_of_mem (a := entry.2) (Surface.nodup_names_ofProgram program) hentry
  obtain ⟨d, hd, same, -⟩ := Surface.mem_of_get?_ofProgram found
  rw [← same]
  exact names d hd

theorem compile (source file : String) (version : Nat)
    (names : ∀ program nextId, (readSource source file c.nextId).result = .ok (program, nextId) →
      ∀ d ∈ Declaration.ofStmts [] program, S (QualifiedName.key d.qualifiedName)) :
    Grows S c (compile source file version c).context := by
  cases read : (readSource source file c.nextId).result with
  | error e =>
    rw [compile_of_violation version read]
    exact refl S c
  | ok out =>
    obtain ⟨program, nextId⟩ := out
    rw [(compile_of_read version read).2]
    have reading : Grows S c { c with nextId } := refl S c
    exact (Php.stmts_lasting (Php.lasting_of_context (lasting S c)) _ program ⟨_, []⟩
      (reading.typeProgram (names program nextId read))).2

theorem size_le (h : Grows S c c') (kept : c.Kept loader) (kept' : c'.Kept loader) :
    c.size ≤ c'.size := by
  obtain ⟨events, grown, -⟩ := h
  rw [size, size, kept.types, kept'.types, grown, CacheEvent.replay_append]
  exact Bindings.length_insertAll _ _

theorem entry (h : Grows S c c') (kept : c.Kept loader) (kept' : c'.Kept loader) {key : String}
    {t : Ty} (found : c.types.get? key = some t) (other : ¬ S key) : c'.types.get? key = some t := by
  obtain ⟨events, grown, named⟩ := h
  rw [kept.types] at found
  obtain ⟨first, known, same⟩ := CacheEvent.exists_of_get?_replay found
  have once := kept'.once
  rw [grown, List.pairwise_append] at once
  -- a later event of the name would be a load, but the name is known already
  have absent : key ∉ Bindings.names (events.map CacheEvent.entry) := by
    intro hkey
    rw [Bindings.names, List.map_map] at hkey
    obtain ⟨e, he, rfl⟩ := List.mem_map.mp hkey
    cases asked : e.loading? with
    | none => exact other (named e he asked)
    | some loading => exact once.2.2 first known e he (by rw [asked]; rfl) same
  rw [kept'.types, grown, CacheEvent.replay_append, Bindings.get?_insertAll_of_not_mem absent]
  exact found

end Grows

end Context

/-! ## Sessions -/

inductive Operation where
  | getType (name : String)
  | addTypes (types : Bindings Ty)
  | contains (name : String)
  | typeProgram (program : List Stmt)
  | compile (source file : String) (version : Nat)

namespace Operation

def apply (c : Context) : Operation → Context
  | getType name => (c.getType name).2.1
  | addTypes types => c.addTypes types
  | contains _ => c
  | typeProgram program => (PhaseLang.typeProgram program c).context
  | compile source file version => (PhaseLang.compile source file version c).context

/-- Types are added under the name: it is given with one, or declared by the program. -/
def Adds (c : Context) : Operation → String → Prop
  | getType _, _ | contains _, _ => False
  | addTypes types, key => ∃ entry ∈ types, QualifiedName.key entry.1 = key
  | typeProgram program, key => ∃ d ∈ Declaration.ofStmts [] program, QualifiedName.key d.qualifiedName = key
  | compile source file _, key => ∃ program nextId, (readSource source file c.nextId).result = .ok (program, nextId) ∧
      ∃ d ∈ Declaration.ofStmts [] program, d.qualifiedName = key

theorem kept_apply (h : c.Kept loader) : ∀ op, (apply c op).Kept loader
  | getType name => Context.Kept.lasting loader c name h
  | addTypes types => h.addTypes types
  | contains _ => h
  | typeProgram program => h.typeProgram program
  | compile source file version => h.compile source file version

theorem grows_apply (c : Context) : ∀ op, c.Grows (op.Adds c) (apply c op)
  | getType name => Context.Grows.lasting _ c c name (.refl _ c)
  | addTypes _ => (Context.Grows.refl _ c).addTypes fun entry hentry => ⟨entry, hentry, rfl⟩
  | contains _ => .refl _ c
  | typeProgram _ => (Context.Grows.refl _ c).typeProgram fun d hd => ⟨d, hd, rfl⟩
  | compile source file version => by
    refine .compile source file version fun program nextId read d hd => ⟨program, nextId, read, d, hd, ?_⟩
    exact (Declaration.qualifiedName_plain (readSource_spelled read) hd).symm

def run (c : Context) (ops : List Operation) : Context := ops.foldl apply c

theorem kept_run (ops : List Operation) : ∀ {c : Context}, c.Kept loader → (run c ops).Kept loader := by
  induction ops with
  | nil => exact fun h => h
  | cons op ops ih => exact fun h => ih (kept_apply h op)

end Operation

namespace Context

theorem key_root (name : String) : QualifiedName.key ("::" ++ name) = QualifiedName.key name := by
  have root : ("::" ++ name).toList = ':' :: ':' :: name.toList := String.toList_append
  rw [QualifiedName.key, root]
  rfl

/-- When the loader was asked, nothing was stored under the name, and it is not asked again. -/
theorem Kept.of_loaded (h : c.Kept loader) {before after : List CacheEvent}
    {name : String} {loading : Loading} (history : c.history = before ++ .loaded name loading :: after) :
    (CacheEvent.replay before).get? name = none ∧
      (∀ e ∈ after, e.loading?.isSome → e.name ≠ name) ∧
      QualifiedName.key name = name ∧ ∃ nextId, loading = ask loader name nextId := by
  have mem : .loaded name loading ∈ c.history := by
    rw [history]
    exact List.mem_append_right _ (List.mem_cons_self ..)
  have once := h.once
  rw [history, List.pairwise_append, List.pairwise_cons] at once
  obtain ⟨-, ⟨later, -⟩, earlier⟩ := once
  refine ⟨?_, fun e he asked => (later e he asked).symm, h.plain _ mem, h.answered _ mem loading rfl⟩
  cases found : (CacheEvent.replay before).get? name with
  | none => rfl
  | some t =>
    obtain ⟨e, he, same⟩ := CacheEvent.exists_of_get?_replay found
    exact absurd same (earlier e he _ (List.mem_cons_self ..) rfl)

theorem get?_replay_missed {before : List CacheEvent} {name : String} {loading : Loading}
    (missed : ∀ t, loading.result ≠ .ok (some t)) :
    (CacheEvent.replay (before ++ [.loaded name loading])).get? name = some (.unknown (some (.ofQualified name))) := by
  have stored : CacheEvent.replay (before ++ [.loaded name loading]) =
      (CacheEvent.replay before).insert name (CacheEvent.loaded name loading).type := CacheEvent.replay_append _ _
  rw [stored, Bindings.get?_insert, if_pos rfl]
  refine congrArg some ?_
  unfold CacheEvent.type
  dsimp only
  split
  · rename_i t found
    exact absurd found (missed t)
  · rfl

end Context

/-- A session with any loader. Names with and without a leading `::` share an entry. The cache is the
replay of its history. A name that is stored is answered from the cache; for one that is not, just one
load is logged, and its type is the answer and is stored. When the loader is asked for a name, nothing
is stored under it, and the loader is not asked for it again; if it does not find a declaration, the
absolute path of the name is stored. The next operation does not make the cache smaller, and it changes an
entry only by adding a type under its name. -/
theorem Operation.run_cache (loader : Option Loader) (nextId : Nat) (ops : List Operation) :
    let c := run { loader, nextId } ops
    (∀ name t, c.getType ("::" ++ name) = c.getType name ∧ c.contains ("::" ++ name) = c.contains name ∧
        c.addTypes [("::" ++ name, t)] = c.addTypes [(name, t)]) ∧
      ((Bindings.names c.types).Nodup ∧ ∀ key ∈ Bindings.names c.types, QualifiedName.key key = key) ∧
      c.types = CacheEvent.replay c.history ∧
      (∀ name, let key := QualifiedName.key name
        (∀ t, c.types.get? key = some t → c.getType name = (t, c, [])) ∧
          (c.types.get? key = none → ∃ loading,
            (c.getType name).2.1.history = c.history ++ [.loaded key loading] ∧
              (c.getType name).1 = (CacheEvent.loaded key loading).type ∧
              (c.getType name).2.1.types.get? key = some (c.getType name).1)) ∧
      (∀ before name loading after, c.history = before ++ .loaded name loading :: after →
        (CacheEvent.replay before).get? name = none ∧
          (∀ e ∈ after, e.loading?.isSome → e.name ≠ name) ∧
          (QualifiedName.key name = name ∧ ∃ nextId, loading = Context.ask loader name nextId) ∧
          ((∀ t, loading.result ≠ .ok (some t)) → ∃ path,
            (CacheEvent.replay (before ++ [.loaded name loading])).get? name = some (.unknown (some path)) ∧
              path.absolute = true ∧ path.qualifiedName = name)) ∧
      ∀ op : Operation, c.size ≤ (op.apply c).size ∧
        ∀ key t, c.types.get? key = some t → (op.apply c).types.get? key = some t ∨ op.Adds c key := by
  intro c
  have kept : c.Kept loader := kept_run ops (.fresh nextId)
  refine ⟨fun name t => ?_, ⟨kept.nodup, fun key hkey => ?_⟩, kept.types,
    fun name => ⟨fun t stored => ?_, fun absent => ⟨_, Context.getType_absent absent⟩⟩,
    fun before name loading after history => ?_, fun op => ?_⟩
  · unfold Context.getType Context.contains Context.addTypes
    simp only [List.map_cons, List.map_nil, Context.key_root, and_self]
  · obtain ⟨entry, hentry, rfl⟩ := List.mem_map.mp hkey
    have found := Bindings.get?_of_mem (a := entry.2) kept.nodup hentry
    rw [kept.types] at found
    obtain ⟨e, he, same⟩ := CacheEvent.exists_of_get?_replay found
    rw [← same]
    exact kept.plain e he
  · simp only [Context.getType, stored]
  · obtain ⟨absent, once, plain, answered⟩ := kept.of_loaded history
    refine ⟨absent, once, ⟨plain, answered⟩, fun missed => ?_⟩
    refine ⟨.ofQualified name, Context.get?_replay_missed missed, rfl, ?_⟩
    rw [TypePath.qualifiedName_ofQualified, plain]
  · have kept' := kept_apply kept op
    have grows := grows_apply c op
    refine ⟨grows.size_le kept kept', fun key t found => ?_⟩
    by_cases adds : op.Adds c key
    · exact .inr adds
    · exact .inl (grows.entry kept kept' found adds)

/-- A name that nothing declares is looked for once. -/
theorem Operation.run_cache_missing :
    (run {} [.getType "A", .getType "::A"]).history = [.loaded "A" ⟨.ok none, 0, []⟩] ∧
      ∃ path, (CacheEvent.replay [.loaded "A" ⟨.ok none, 0, []⟩]).get? "A" = some (.unknown (some path)) ∧
        path.absolute = true ∧ path.qualifiedName = "A" := by
  have history : (run {} [.getType "A", .getType "::A"]).history = [.loaded "A" ⟨.ok none, 0, []⟩] := by rfl
  have cache := run_cache none 0 [.getType "A", .getType "::A"]
  exact ⟨history, (cache.2.2.2.2.1 [] "A" ⟨.ok none, 0, []⟩ [] history).2.2.2 nofun⟩

end PhaseLang
