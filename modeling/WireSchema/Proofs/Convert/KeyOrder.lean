import WireSchema.Proofs.Convert.Outcomes
import WireSchema.Proofs.Rearrangement

/-!
The order of names is never seen in what is converted. Two runs of an engine, whose schemas differ
only in the order of fields and variants and whose values only in the order of keys, succeed
together, with results that differ only in the order of keys, and either both hand back their input
or neither does. Without the last there would be no telling how a held payload is put back.
-/

set_option autoImplicit false

namespace WireSchema

open WireSchema.Update (property kindKey valueKey Keeps items mapItems variantValue)
open WireSchema.Value (Rearranged Dense Filled)

/-- What two rearranged values become: one a rearrangement of the other, and either both are what
they were or neither is. -/
structure Mirrored (v w r r' : Value) : Prop where
  alike : r.Rearranged r'
  same : r = v ↔ r' = w

theorem mirrored_kept {v w : Value} (alike : v.Rearranged w) : Mirrored v w v w :=
  ⟨alike, iff_of_true rfl rfl⟩

namespace Convert

variable {fresh fresh' o p : Origin} {v w r : Value}

def Mirrors (c d : Conversion Fault) : Prop :=
  ∀ ⦃fresh fresh' : Origin⦄ ⦃v w r : Value⦄, v.Rearranged w → v.Proper → v.Dense →
    v.Predates fresh → w.Predates fresh' → c fresh v = .ok r →
    ∃ r', d fresh' w = .ok r' ∧ Mirrored v w r r'

section Items

variable {vs ws results results' : List Value} {f f' : Nat → Value → Except Fault Value}

structure Abreast (vs ws results results' : List Value) : Prop where
  length : vs.length = ws.length
  left : results.length = vs.length
  right : results'.length = ws.length
  each : ∀ (j : Nat) (x y : Value), vs[j]? = some x → ws[j]? = some y →
    ∃ a b, results[j]? = some a ∧ results'[j]? = some b ∧ Mirrored x y a b

theorem Abreast.unchanged_iff (abreast : Abreast vs ws results results') :
    results = vs ↔ results' = ws := by
  have length := abreast.length
  constructor
  · rintro rfl
    refine Schema.eq_of_each abreast.right fun j y there => ?_
    obtain ⟨x, found⟩ := exists_beside length there
    obtain ⟨a, b, same, here, mirrored⟩ := abreast.each j x y found there
    rw [here, mirrored.same.mp (Option.some.inj (same.symm.trans found))]
  · rintro rfl
    refine Schema.eq_of_each abreast.left fun j x found => ?_
    obtain ⟨y, there⟩ := exists_beside length.symm found
    obtain ⟨a, b, here, same, mirrored⟩ := abreast.each j x y found there
    rw [here, mirrored.same.mpr (Option.some.inj (same.symm.trans there))]

theorem Abreast.rearranged (abreast : Abreast vs ws results results') :
    (Value.array o results).Rearranged (.array p results') := by
  have length := abreast.length
  have left := abreast.left
  have right := abreast.right
  refine .array (by omega) fun j a b here here' => ?_
  have within := (List.getElem?_eq_some_iff.mp here).1
  obtain ⟨_, _, same, same', mirrored⟩ := abreast.each j vs[j] ws[j]
    (List.getElem?_eq_getElem (by omega)) (List.getElem?_eq_getElem (by omega))
  obtain rfl := Option.some.inj (here.symm.trans same)
  obtain rfl := Option.some.inj (here'.symm.trans same')
  exact mirrored.alike

private theorem exists_abreast (length : vs.length = ws.length)
    (each : ∀ (j : Nat) (x y a : Value), vs[j]? = some x → ws[j]? = some y → f j x = .ok a →
      ∃ b, f' j y = .ok b ∧ Mirrored x y a b)
    (mapped : mapItems f 0 vs = .ok results) :
    ∃ results', mapItems f' 0 ws = .ok results' ∧ Abreast vs ws results results' := by
  obtain ⟨size, answered⟩ := Update.mapItems_eq_ok_iff.mp mapped
  have answers : ∀ (j : Nat) (y : Value), ws[j]? = some y → ∃ b, f' j y = .ok b ∧
      ∀ x, vs[j]? = some x → ∃ a, results[j]? = some a ∧ Mirrored x y a b := by
    intro j y there
    obtain ⟨x, found⟩ := exists_beside length there
    obtain ⟨a, here, made⟩ := answered j x found
    rw [Nat.zero_add] at made
    obtain ⟨b, made', mirrored⟩ := each j x y a found there made
    exact ⟨b, made', fun x same => ⟨a, here, Option.some.inj (found.symm.trans same) ▸ mirrored⟩⟩
  obtain ⟨results', size', answered'⟩ := exists_results answers
  refine ⟨results', Update.mapItems_eq_ok_iff.mpr ⟨size', fun j y there => ?_⟩, length, size, size',
    fun j x y found there => ?_⟩
  · obtain ⟨b, here, made, -⟩ := answered' j y there
    exact ⟨b, here, by rwa [Nat.zero_add]⟩
  · obtain ⟨b, here', -, others⟩ := answered' j y there
    obtain ⟨a, here, mirrored⟩ := others x found
    exact ⟨a, b, here, here', mirrored⟩

theorem mirrored_items (alike : (Value.array o vs).Rearranged (.array p ws))
    (old : (Value.array o vs).Predates fresh) (old' : (Value.array p ws).Predates fresh')
    (keeps : ∀ j, ∀ x ∈ vs, Keeps (f j x) x) (keeps' : ∀ j, ∀ y ∈ ws, Keeps (f' j y) y)
    (each : ∀ (j : Nat) (x y a : Value), vs[j]? = some x → ws[j]? = some y → f j x = .ok a →
      ∃ b, f' j y = .ok b ∧ Mirrored x y a b)
    (done : items fresh f o vs = .ok r) :
    ∃ r', items fresh' f' p ws = .ok r' ∧ Mirrored (.array o vs) (.array p ws) r r' := by
  obtain ⟨results, mapped, made⟩ := (Update.items_eq_ok_iff keeps).mp done
  obtain ⟨results', mapped', abreast⟩ := exists_abreast alike.length_eq each mapped
  rcases made with ⟨kept, rfl⟩ | ⟨differ, rfl⟩
  · exact ⟨_, (Update.items_eq_ok_iff keeps').mpr
      ⟨results', mapped', Or.inl ⟨abreast.unchanged_iff.mp kept, rfl⟩⟩, mirrored_kept alike⟩
  · refine ⟨_, (Update.items_eq_ok_iff keeps').mpr
      ⟨results', mapped', Or.inr ⟨mt abreast.unchanged_iff.mpr differ, rfl⟩⟩, abreast.rearranged, ?_⟩
    refine iff_of_false (fun same => ?_) fun same => ?_
    · exact old.array_origin_ne (Value.array.inj same).1
    · exact old'.array_origin_ne (Value.array.inj same).1

end Items

section Properties

variable {cs ds : List (String × Conversion Fault)} {es fs : List (String × Value)} {r' : Value}

theorem mirrored_properties (names : (Entries.names cs).Perm (Entries.names ds))
    (distinct : Entries.Distinct cs) (discerning : ∀ key c, (key, c) ∈ cs → Discerning c)
    (discerning' : ∀ key d, (key, d) ∈ ds → Discerning d)
    (alike : (Value.object o es).Rearranged (.object p fs)) (tidy : (Value.object o es).Proper)
    (dense : (Value.object o es).Dense) (old : (Value.object o es).Predates fresh)
    (old' : (Value.object p fs).Predates fresh')
    (done : convertProperties cs fresh (.object o es) = .ok r)
    (done' : convertProperties ds fresh' (.object p fs) = .ok r')
    (each : ∀ key ∈ Entries.names cs,
      Mirrored (property key es) (property key fs) (r.get key) (r'.get key)) :
    Mirrored (.object o es) (.object p fs) r r' := by
  have distinct' : Entries.Distinct ds := names.nodup_iff.mp distinct
  have tidy' := alike.proper tidy
  have filled' := (alike.dense tidy dense).filled
  constructor
  · obtain ⟨-, others⟩ := convertProperties_others distinct discerning old tidy done
    obtain ⟨-, others'⟩ := convertProperties_others distinct' discerning' old' tidy' done'
    have every : ∀ key, (r.get key).Rearranged (r'.get key) := by
      intro key
      by_cases declared : key ∈ Entries.names cs
      · exact (each key declared).alike
      · rw [others key declared, others' key (mt names.mem_iff.mpr declared)]
        exact alike.property key
    obtain ⟨_, _, rfl, once, full⟩ := exists_entries_of_convertProperties done
    obtain ⟨_, _, rfl, once', full'⟩ := exists_entries_of_convertProperties done'
    refine .object ?_ every
    exact Value.perm_names (once tidy.distinct) (full dense.filled) (once' tidy'.distinct)
      (full' filled') fun key => (every key).absent_iff
  · obtain ⟨-, whole⟩ := convertProperties_parts distinct discerning old tidy done
    obtain ⟨-, whole'⟩ := convertProperties_parts distinct' discerning' old' tidy' done'
    constructor
    · rintro rfl
      refine whole'.resolve_right ?_
      rintro ⟨-, key, d, member, differ⟩
      have declared := names.mem_iff.mpr (Entries.mem_names_of_mem member)
      exact differ ((each key declared).same.mp rfl)
    · rintro rfl
      refine whole.resolve_right ?_
      rintro ⟨-, key, c, member, differ⟩
      exact differ ((each key (Entries.mem_names_of_mem member)).same.mpr rfl)

theorem convertProperties_mirrors (names : (Entries.names cs).Perm (Entries.names ds))
    (distinct : Entries.Distinct cs) (discerning : ∀ key c, (key, c) ∈ cs → Discerning c)
    (discerning' : ∀ key d, (key, d) ∈ ds → Discerning d)
    (mirrors : ∀ key c d, Entries.get? key cs = some c → Entries.get? key ds = some d →
      Mirrors c d) : Mirrors (convertProperties cs) (convertProperties ds) := by
  intro fresh fresh' v w r alike tidy dense old old' done
  have distinct' : Entries.Distinct ds := names.nodup_iff.mp distinct
  obtain ⟨o, es, -, rfl, -⟩ := convertProperties_eq_ok_iff.mp done
  obtain ⟨p, fs, rfl⟩ := alike.object_iff.mp ⟨o, es, rfl⟩
  obtain ⟨parts, -⟩ := convertProperties_parts distinct discerning old tidy done
  have asked : ∀ key d, (key, d) ∈ ds → ∃ y, d (fresh'.enter (.key key)) (property key fs) = .ok y ∧
      Mirrored (property key es) (property key fs) (r.get key) y := by
    intro key d member
    have there := Entries.get?_of_mem distinct' member
    obtain ⟨c, found⟩ := Entries.exists_get?_of_perm names there
    exact mirrors key c d found there (alike.property key) (tidy.property key)
      (dense.property key) ((old.property key).enter _) ((old'.property key).enter _)
      (parts key c (Entries.mem_of_get? found))
  obtain ⟨r', done'⟩ : ∃ r', convertProperties ds fresh' (.object p fs) = .ok r' := by
    refine exists_convertProperties_iff.mpr fun key d member => ?_
    obtain ⟨y, made, -⟩ := asked key d member
    exact ⟨y, made⟩
  refine ⟨r', done', mirrored_properties names distinct discerning discerning' alike tidy dense old
    old' done done' fun key declared => ?_⟩
  obtain ⟨d, there⟩ := Entries.exists_get?_of_mem_names (names.mem_iff.mp declared)
  have member := Entries.mem_of_get? there
  obtain ⟨y, made, mirrored⟩ := asked key d member
  obtain ⟨parts', -⟩ :=
    convertProperties_parts distinct' discerning' old' (alike.proper tidy) done'
  obtain rfl := Except.ok.inj (made.symm.trans (parts' key d member))
  exact mirrored

end Properties

end Convert

namespace Schema

open WireSchema.Convert

variable {engine : Engine} {s t : Schema}

private theorem mirrored_bigint {fresh fresh' : Origin} {v : Value} {n : Int}
    (other : ∀ o, v ≠ .bigint o n) : Mirrored v v (.bigint fresh n) (.bigint fresh' n) :=
  ⟨.bigint, iff_of_false (fun same => other fresh same.symm) fun same => other fresh' same.symm⟩

private theorem text_ne_bigint {v : Value} (text : Leaf.isText v = true) (o : Origin) (n : Int) :
    v ≠ .bigint o n := by
  rintro rfl
  simp [Leaf.isText] at text

private theorem read_mirrors (l : Leaf) : Mirrors l.read l.read := by
  intro fresh fresh' v w r alike _ _ _ _ done
  have kept := mirrored_kept alike
  cases alike with
  | scalar _ =>
    cases l with
    | bigint =>
      obtain ⟨n, found, rfl⟩ := map_eq_ok.mp done
      have text := Leaf.isText_of_readDigits found
      exact ⟨_, map_eq_ok.mpr ⟨n, found, rfl⟩, mirrored_bigint fun o => text_ne_bigint text o n⟩
    | u64 | i64 =>
      obtain ⟨n, found, rfl⟩ := map_eq_ok.mp done
      have text := Leaf.isText_of_readDigits (Leaf.readDigits_of_range found)
      exact ⟨_, map_eq_ok.mpr ⟨n, found, rfl⟩, mirrored_bigint fun o => text_ne_bigint text o n⟩
    | _ => exact ⟨r, done, .refl r, Iff.rfl⟩
  | bigint | array _ _ | object _ _ =>
    cases l with
    | json =>
      obtain rfl := Except.ok.inj done
      exact ⟨_, rfl, kept⟩
    | _ =>
      simp [Leaf.read, Leaf.readBool, Leaf.readString, Leaf.readInteger, Leaf.readNumber,
        Leaf.readBigint, Leaf.readBigintIn, Leaf.readDigitsIn, Leaf.readDigits, Leaf.readDate,
        Leaf.readTemporal, Value.asNumber, Value.mistyped, Except.map] at done

private theorem trust_mirrors {fresh fresh' : Origin} {v w : Value} (l : Leaf)
    (alike : v.Rearranged w) : Mirrored v w (l.trust fresh v) (l.trust fresh' w) := by
  have kept := mirrored_kept alike
  cases alike with
  | scalar _ =>
    cases l with
    | bigint | u64 | i64 =>
      simp only [Leaf.trust, Leaf.trustBigint]
      repeat' split
      all_goals first | exact mirrored_bigint (by simp) | exact kept
    | _ => exact ⟨.refl _, Iff.rfl⟩
  | bigint | array _ _ | object _ _ =>
    cases l with
    | number => exact ⟨.refl _, by simp [Leaf.trust, Leaf.trustNumber]⟩
    | _ => exact kept

private theorem write_mirrors {v w r : Value} {l : Leaf} {options : WriteOptions}
    (alike : v.Rearranged w) (done : l.write options v = .ok r) :
    ∃ r', l.write options w = .ok r' ∧ Mirrored v w r r' := by
  cases busy : l.converts options with
  | false =>
    obtain rfl := Except.ok.inj ((Leaf.write_of_not_converts busy v).symm.trans done)
    exact ⟨w, Leaf.write_of_not_converts busy w, mirrored_kept alike⟩
  | true =>
    rw [Leaf.write_of_converts busy] at done ⊢
    cases alike with
    | scalar _ => exact ⟨r, done, .refl r, Iff.rfl⟩
    | bigint =>
      cases l with
      | bigint | u64 | i64 =>
        obtain rfl := Except.ok.inj done
        exact ⟨_, rfl, .refl _, by simp⟩
      | number | date | temporal _ => cases done
      | _ => simp [Leaf.converts] at busy
    | array _ _ | object _ _ =>
      cases l with
      | bigint | u64 | i64 | number | date | temporal _ => cases done
      | _ => simp [Leaf.converts] at busy

private theorem leaf_mirrors (engine : Engine) (l : Leaf) :
    Mirrors (engine.convert (.leaf l)) (engine.convert (.leaf l)) := by
  cases engine with
  | read => exact read_mirrors l
  | trust =>
    intro fresh fresh' v w r alike _ _ _ _ done
    obtain rfl := Except.ok.inj done
    exact ⟨_, rfl, trust_mirrors l alike⟩
  | write options => exact fun _ _ _ _ _ alike _ _ _ _ done => write_mirrors alike done

private theorem mirrored_other {fresh fresh' : Origin} {v w r : Value} (alike : v.Rearranged w)
    (here : engine.convert s fresh v = .ok r ↔ engine = .trust ∧ r = v)
    (there : engine.convert t fresh' w = .ok w ↔ engine = .trust ∧ w = w)
    (done : engine.convert s fresh v = .ok r) :
    ∃ r', engine.convert t fresh' w = .ok r' ∧ Mirrored v w r r' := by
  obtain ⟨trusting, rfl⟩ := here.mp done
  exact ⟨w, there.mpr ⟨trusting, rfl⟩, mirrored_kept alike⟩

private theorem option_mirrors {a b : Schema} (inner : Mirrors (engine.convert a) (engine.convert b)) :
    Mirrors (engine.convert (.option a)) (engine.convert (.option b)) := by
  intro fresh fresh' v w r alike tidy dense old old' done
  rw [Engine.convert_option] at done ⊢
  by_cases gone : v = .absent
  · subst gone
    obtain rfl := alike.absent_iff.mp rfl
    obtain rfl := Except.ok.inj done
    exact ⟨.absent, rfl, mirrored_kept alike⟩
  · have gone' : w ≠ .absent := fun none => gone (alike.absent_iff.mpr none)
    rw [if_neg (by simpa using gone)] at done
    rw [if_neg (by simpa using gone')]
    exact inner alike tidy dense old old' done

private theorem array_mirrors {a b : Schema} (item : Mirrors (engine.convert a) (engine.convert b)) :
    Mirrors (engine.convert (.array a)) (engine.convert (.array b)) := by
  intro fresh fresh' v w r alike tidy dense old old' done
  by_cases shape : ∃ o vs, v = .array o vs
  · obtain ⟨o, vs, rfl⟩ := shape
    obtain ⟨p, ws, rfl⟩ := alike.array_iff.mp ⟨o, vs, rfl⟩
    rw [Engine.convert_array_eq] at done ⊢
    refine mirrored_items alike old old' (engine.keeps_each a old) (engine.keeps_each b old')
      (fun j x y r found there made => ?_) done
    have member := List.mem_of_getElem? found
    have member' := List.mem_of_getElem? there
    obtain ⟨r', made', mirrored⟩ := item (alike.item found there) (tidy.items x member)
      (dense.items x member) ((old.item member).enter _) ((old'.item member').enter _)
      (located_eq_ok.mp made)
    exact ⟨r', located_eq_ok.mpr made', mirrored⟩
  · refine mirrored_other alike (Engine.convert_array_other fun o vs same => shape ⟨o, vs, same⟩)
      (Engine.convert_array_other fun p ws same => shape (alike.array_iff.mpr ⟨p, ws, same⟩)) done

private theorem position_mirrors {as bs : List Schema} (length : as.length = bs.length)
    (elems : ∀ (i : Nat) (a b : Schema), as[i]? = some a → bs[i]? = some b →
      Mirrors (engine.convert a) (engine.convert b))
    {fresh fresh' o p : Origin} {vs ws : List Value}
    (alike : (Value.array o vs).Rearranged (.array p ws)) (tidy : (Value.array o vs).Proper)
    (dense : (Value.array o vs).Dense) (old : (Value.array o vs).Predates fresh)
    (old' : (Value.array p ws).Predates fresh') {j : Nat} {x y z : Value} (found : vs[j]? = some x)
    (there : ws[j]? = some y)
    (done : convertAt (as.map engine.convert) j (fresh.enter (.index j)) x = .ok z) :
    ∃ z', convertAt (bs.map engine.convert) j (fresh'.enter (.index j)) y = .ok z' ∧
      Mirrored x y z z' := by
  have member := List.mem_of_getElem? found
  have member' := List.mem_of_getElem? there
  unfold convertAt at done ⊢
  rw [List.getElem?_map] at done ⊢
  cases declared : as[j]? with
  | none =>
    have missing : bs[j]? = none := by
      rw [List.getElem?_eq_none_iff] at declared ⊢
      omega
    rw [declared] at done
    rw [missing]
    obtain rfl := Except.ok.inj done
    exact ⟨y, rfl, mirrored_kept (alike.item found there)⟩
  | some a =>
    obtain ⟨b, declared'⟩ := exists_beside length.symm declared
    rw [declared, Option.map_some, Option.elim_some, located_eq_ok] at done
    obtain ⟨z', done', mirrored⟩ := elems j a _ declared declared' (alike.item found there)
      (tidy.items x member) (dense.items x member) ((old.item member).enter _)
      ((old'.item member').enter _) done
    rw [declared', Option.map_some, Option.elim_some]
    exact ⟨z', located_eq_ok.mpr done', mirrored⟩

private theorem tuple_mirrors {as bs : List Schema} (length : as.length = bs.length)
    (elems : ∀ (i : Nat) (a b : Schema), as[i]? = some a → bs[i]? = some b →
      Mirrors (engine.convert a) (engine.convert b)) :
    Mirrors (engine.convert (.tuple as)) (engine.convert (.tuple bs)) := by
  intro fresh fresh' v w r alike tidy dense old old' done
  by_cases shape : ∃ o vs, v = .array o vs
  · obtain ⟨o, vs, rfl⟩ := shape
    obtain ⟨p, ws, rfl⟩ := alike.array_iff.mp ⟨o, vs, rfl⟩
    obtain ⟨fits, done⟩ := Engine.convert_tuple_iff.mp done
    obtain ⟨r', done', mirrored⟩ := mirrored_items alike old old'
      (engine.keeps_elems old fun _ _ => rfl) (engine.keeps_elems old' fun _ _ => rfl)
      (fun j x y z found there made => position_mirrors length elems alike tidy dense old old'
        found there made) done
    refine ⟨r', Engine.convert_tuple_iff.mpr ⟨?_, done'⟩, mirrored⟩
    rwa [← alike.length_eq, ← length]
  · exact mirrored_other alike (Engine.convert_tuple_other fun o vs same => shape ⟨o, vs, same⟩)
      (Engine.convert_tuple_other fun p ws same => shape (alike.array_iff.mpr ⟨p, ws, same⟩)) done

private theorem fields_mirror {as bs : List (String × Schema)}
    (names : (Entries.names as).Perm (Entries.names bs)) (distinct : Entries.Distinct as)
    (optional : ∀ name a b, Entries.get? name as = some a → Entries.get? name bs = some b →
      b.isOption = a.isOption)
    (fields : ∀ name a b, Entries.get? name as = some a → Entries.get? name bs = some b →
      Mirrors (engine.convert a) (engine.convert b)) :
    Mirrors (convertProperties (Entries.mapValues engine.field as))
      (convertProperties (Entries.mapValues engine.field bs)) := by
  refine convertProperties_mirrors (by simpa using names) (distinct.mapValues _)
    (fun key c => Engine.field_discerning) (fun key c => Engine.field_discerning)
    fun key c d found there => ?_
  rw [Entries.get?_mapValues, Option.map_eq_some_iff] at found there
  obtain ⟨a, found, rfl⟩ := found
  obtain ⟨b, there, rfl⟩ := there
  intro fresh fresh' v w r alike tidy dense old old' done
  obtain ⟨missing, done⟩ := Engine.field_eq_ok_iff.mp done
  obtain ⟨r', done', mirrored⟩ := fields key a b found there alike tidy dense old old' done
  refine ⟨r', Engine.field_eq_ok_iff.mpr ⟨fun reading gone => ?_, done'⟩, mirrored⟩
  rw [optional key a b found there]
  exact missing reading (alike.absent_iff.mpr gone)

private theorem object_mirrors {as bs : List (String × Schema)}
    (fields : Mirrors (convertProperties (Entries.mapValues engine.field as))
      (convertProperties (Entries.mapValues engine.field bs))) :
    Mirrors (engine.convert (.object as)) (engine.convert (.object bs)) := by
  intro fresh fresh' v w r alike tidy dense old old' done
  by_cases shape : ∃ o es, v = .object o es
  · obtain ⟨o, es, rfl⟩ := shape
    obtain ⟨p, fs, rfl⟩ := alike.object_iff.mp ⟨o, es, rfl⟩
    rw [Engine.convert_object_eq] at done ⊢
    exact fields alike tidy dense old old' done
  · exact mirrored_other alike (Engine.convert_object_other fun o es same => shape ⟨o, es, same⟩)
      (Engine.convert_object_other fun p fs same => shape (alike.object_iff.mpr ⟨p, fs, same⟩)) done

section Choice

variable {fresh fresh' o p : Origin} {es fs : List (String × Value)} {kind : String} {r : Value}

private theorem admits_mirrored {declared declared' : Option (Option Schema)}
    (related : Option.Rel (Option.Rel Rearranged) declared declared')
    (alike : (Value.object o es).Rearranged (.object p fs)) (admitted : engine.Admits declared es) :
    engine.Admits declared' fs := by
  have keys := fun key => alike.names.mem_iff (a := key)
  cases engine with
  | trust => trivial
  | read =>
    rcases related with (payload | _) | _
    · intro held
      obtain ⟨known, there⟩ := admitted (payload.isObject_eq ▸ held)
      exact ⟨fun key member => known key ((keys key).mpr member),
        mt (alike.property valueKey).absent_iff.mpr there⟩
    · exact fun key member => admitted key ((keys key).mpr member)
    · exact admitted
  | write options =>
    intro missing
    subst missing
    cases related
    exact admitted rfl

private theorem variantValue_rearranged {a b : Value} (alike : a.Rearranged b) :
    (variantValue fresh kind a).Rearranged (variantValue fresh' kind b) := by
  have filled : Filled [(kindKey, Value.string kind)] := by simp [Filled]
  have each : ∀ key, ((variantValue fresh kind a).get key).Rearranged
      ((variantValue fresh' kind b).get key) := by
    intro key
    rw [Update.get_variantValue, Update.get_variantValue]
    split
    · exact alike
    · exact .refl _
  refine .object ?_ each
  exact Value.perm_names (Update.distinct_variantValue kind a) (Update.filled_setProperty filled _ _)
    (Update.distinct_variantValue kind b) (Update.filled_setProperty filled _ _)
    fun key => (each key).absent_iff

private theorem held_mirrors {a b : Schema} (inner : Mirrors (engine.convert a) (engine.convert b))
    (alike : (Value.object o es).Rearranged (.object p fs)) (tidy : (Value.object o es).Proper)
    (dense : (Value.object o es).Dense) (old : (Value.object o es).Predates fresh)
    (old' : (Value.object p fs).Predates fresh') {mapped : Value}
    (done : engine.convert a (fresh.enter (.key valueKey)) (property valueKey es) = .ok mapped) :
    ∃ mapped', engine.convert b (fresh'.enter (.key valueKey)) (property valueKey fs) =
        .ok mapped' ∧
      Mirrored (.object o es) (.object p fs)
        (if mapped.same (property valueKey es) then .object o es
          else variantValue fresh kind mapped)
        (if mapped'.same (property valueKey fs) then .object p fs
          else variantValue fresh' kind mapped') := by
  have older := (old.property valueKey).enter (.key valueKey)
  have older' := (old'.property valueKey).enter (.key valueKey)
  obtain ⟨mapped', done', mirrored⟩ := inner (alike.property valueKey) (tidy.property valueKey)
    (dense.property valueKey) older older' done
  refine ⟨mapped', done', ?_⟩
  have same := Keeps.same_iff (engine.convert_discerning a _ _ older) done
  have same' := Keeps.same_iff (engine.convert_discerning b _ _ older') done'
  by_cases kept : mapped = property valueKey es
  · rw [if_pos (same.mpr kept), if_pos (same'.mpr (mirrored.same.mp kept))]
    exact mirrored_kept alike
  · rw [if_neg (mt same.mp kept), if_neg (mt same'.mp (mt mirrored.same.mpr kept))]
    refine ⟨variantValue_rearranged mirrored.alike,
      iff_of_false (fun same => ?_) fun same => ?_⟩
    · exact old.object_origin_ne (Value.object.inj same).1
    · exact old'.object_origin_ne (Value.object.inj same).1

private theorem lands_mirrored {declared declared' : Option (Option Schema)}
    (related : Option.Rel (Option.Rel Rearranged) declared declared')
    (held : ∀ a b, declared = some (some a) → declared' = some (some b) →
      Mirrors (engine.convert a) (engine.convert b))
    (spread : ∀ as bs, declared = some (some (.object as)) → declared' = some (some (.object bs)) →
      Mirrors (convertProperties (Entries.mapValues engine.field as))
        (convertProperties (Entries.mapValues engine.field bs)))
    (alike : (Value.object o es).Rearranged (.object p fs)) (tidy : (Value.object o es).Proper)
    (dense : (Value.object o es).Dense) (old : (Value.object o es).Predates fresh)
    (old' : (Value.object p fs).Predates fresh')
    (landed : Engine.Lands engine fresh o es kind r declared) :
    ∃ r', Engine.Lands engine fresh' p fs kind r' declared' ∧
      Mirrored (.object o es) (.object p fs) r r' := by
  rcases related with (payload | _) | _
  · rcases landed with ⟨as, rfl, done⟩ | ⟨plain, mapped, done, rfl⟩
    · cases payload with
      | @object as bs names fields =>
        obtain ⟨r', done', mirrored⟩ := spread as bs rfl rfl alike tidy dense old old' done
        exact ⟨r', Or.inl ⟨bs, rfl, done'⟩, mirrored⟩
    · obtain ⟨mapped', done', mirrored⟩ :=
        held_mirrors (held _ _ rfl rfl) alike tidy dense old old' done
      exact ⟨_, Or.inr ⟨payload.isObject_eq.trans plain, mapped', done', rfl⟩, mirrored⟩
  · obtain rfl : r = .object o es := landed
    exact ⟨_, rfl, mirrored_kept alike⟩
  · obtain rfl : r = if engine.drops then .absent else .object o es := landed
    refine ⟨_, rfl, ?_⟩
    split
    · exact ⟨.refl _, by simp⟩
    · exact mirrored_kept alike

private theorem choice_mirrors {as bs : List (String × Option Schema)}
    (related : Rearranged (.choice as) (.choice bs))
    (held : ∀ kind a b, Entries.get? kind as = some (some a) →
      Entries.get? kind bs = some (some b) → Mirrors (engine.convert a) (engine.convert b))
    (spread : ∀ kind fields fields', Entries.get? kind as = some (some (.object fields)) →
      Entries.get? kind bs = some (some (.object fields')) →
      Mirrors (convertProperties (Entries.mapValues engine.field fields))
        (convertProperties (Entries.mapValues engine.field fields'))) :
    Mirrors (engine.convert (.choice as)) (engine.convert (.choice bs)) := by
  intro fresh fresh' v w r alike tidy dense old old' done
  by_cases shape : ∃ o es, v = .object o es
  · obtain ⟨o, es, rfl⟩ := shape
    obtain ⟨p, fs, rfl⟩ := alike.object_iff.mp ⟨o, es, rfl⟩
    by_cases named : ∃ kind, property kindKey es = .string kind
    · obtain ⟨kind, named⟩ := named
      have named' := (alike.property kindKey).string_iff.mp named
      obtain ⟨admitted, landed⟩ := (Engine.convert_choice_iff named).mp done
      obtain ⟨r', landed', mirrored⟩ := lands_mirrored (related.variant kind) (held kind)
        (spread kind) alike tidy dense old old' landed
      exact ⟨r', (Engine.convert_choice_iff named').mpr
        ⟨admits_mirrored (related.variant kind) alike admitted, landed'⟩, mirrored⟩
    · refine mirrored_other alike (Engine.convert_choice_other ?_) (Engine.convert_choice_other ?_)
        done
      · rintro _ _ kind same found
        obtain ⟨rfl, rfl⟩ := Value.object.inj same
        exact named ⟨kind, found⟩
      · rintro _ _ kind same found
        obtain ⟨rfl, rfl⟩ := Value.object.inj same
        exact named ⟨kind, (alike.property kindKey).string_iff.mpr found⟩
  · exact mirrored_other alike
      (Engine.convert_choice_other fun o es _ same _ => shape ⟨o, es, same⟩)
      (Engine.convert_choice_other fun p fs _ same _ => shape (alike.object_iff.mpr ⟨p, fs, same⟩))
      done

end Choice

/-- Whatever an engine makes of a value under a schema it makes of a rearranged one under a
rearranged schema. -/
theorem Rearranged.mirrors (engine : Engine) (related : s.Rearranged t) (proper : s.Proper) :
    Mirrors (engine.convert s) (engine.convert t) := by
  induction s using byLayout generalizing t with
  | leaf l => cases related with | leaf _ => exact leaf_mirrors engine l
  | option inner ih =>
    cases related with
    | option related => cases proper with | option proper => exact option_mirrors (ih related proper)
  | array item ih =>
    cases related with
    | array related => cases proper with | array proper => exact array_mirrors (ih related proper)
  | tuple elems ih =>
    cases related with
    | tuple length related =>
      cases proper with
      | tuple proper =>
        refine tuple_mirrors length fun i a b found there => ?_
        have member := List.mem_of_getElem? found
        exact ih a member (related i a b found there) (proper a member)
  | object fields ih =>
    cases related with
    | object names related =>
      refine object_mirrors (fields_mirror names proper.distinct
        (fun name a b found there => (related name a b found there).isOption_eq)
        fun name a b found there => ?_)
      have member := Entries.mem_of_get? found
      exact ih name a member (related name a b found there) (proper.field member)
  | choice variants held spread =>
    obtain ⟨bs, rfl⟩ : ∃ bs, t = .choice bs := by
      cases related
      exact ⟨_, rfl⟩
    refine choice_mirrors related (fun kind a b found there => ?_) fun kind as bs found there => ?_
    · have pair := related.variant kind
      rw [found, there] at pair
      cases pair with
      | some pair =>
        cases pair with
        | some pair => exact held kind a (Entries.mem_of_get? found) pair (proper.payload found)
    · have pair := related.variant kind
      rw [found, there] at pair
      have inside := proper.payload found
      cases pair with
      | some pair =>
        cases pair with
        | some pair =>
          cases pair with
          | object names pair =>
            refine fields_mirror names inside.distinct
              (fun name a b found there => (pair name a b found there).isOption_eq)
              fun name a b field there => ?_
            have member := Entries.mem_of_get? field
            exact spread kind as (Entries.mem_of_get? found) name a member
              (pair name a b field there) (inside.field member)

/-- No engine sees the order of keys, fields and variants. Where the schemas and the inputs differ in
nothing else, and no object of the input has an entry that holds nothing, both runs succeed, with
results that differ in nothing else, or both fail. -/
theorem run_rearranged (engine : Engine) {schema other : Schema} (proper : schema.Proper)
    (schemas : schema.Rearranged other) {input input' : Value} (tidy : input.Proper)
    (dense : input.Dense) (inputs : input.Rearranged input') :
    (∃ result result', engine.run schema input = .ok result ∧
        engine.run other input' = .ok result' ∧ result.Rearranged result') ∨
      ∃ fault fault', engine.run schema input = .error fault ∧
        engine.run other input' = .error fault' := by
  rw [Engine.run_eq, Engine.run_eq]
  have old := input.predates_freshOrigin
  have old' := input'.predates_freshOrigin
  cases done : engine.convert schema input.freshOrigin input with
  | ok result =>
    obtain ⟨result', done', mirrored⟩ :=
      schemas.mirrors engine proper inputs tidy dense old old' done
    exact Or.inl ⟨result, result', rfl, done', mirrored.alike⟩
  | error fault =>
    cases done' : engine.convert other input'.freshOrigin input' with
    | error fault' => exact Or.inr ⟨fault, fault', rfl, rfl⟩
    | ok result' =>
      obtain ⟨result, again, -⟩ := schemas.symm.mirrors engine (schemas.proper proper) inputs.symm
        (inputs.proper tidy) (inputs.dense tidy dense) old' old done'
      simp [done] at again

theorem run_rearranged_swapped :
    let shape : Schema := .choice [("round", some (.leaf .number)), ("flat", none)]
    let shape' : Schema := .choice [("flat", none), ("round", some (.leaf .number))]
    let schema : Schema := .object [("id", .leaf .bigint), ("shape", shape)]
    let other : Schema := .object [("shape", shape'), ("id", .leaf .bigint)]
    let inner : Value := .object (.root 0) [("kind", .string "round"), ("value", .string "NaN")]
    let inner' : Value := .object (.root 0) [("value", .string "NaN"), ("kind", .string "round")]
    let input : Value := .object (.root 1) [("id", .string "7"), ("shape", inner)]
    let input' : Value := .object (.root 1) [("shape", inner'), ("id", .string "7")]
    schema.Proper ∧ schema.Rearranged other ∧ input.Proper ∧ input.Dense ∧
      input.Rearranged input' ∧ ∃ result result', Engine.read.run schema input = .ok result ∧
        Engine.read.run other input' = .ok result' ∧ result.Rearranged result' := by
  intro shape shape' schema other inner inner' input input'
  have proper : schema.Proper := by decide +zetaReduce
  have shapes : shape.Rearranged shape' := by
    refine .choice (List.Perm.swap _ _ _) (fun kind => ?_) fun kind a b found there => ?_
    · simp only [Entries.get?]
      split
      · next same =>
        subst same
        simp
      · next differ => simp
    · have member := Entries.mem_of_get? found
      simp only [List.mem_cons, Prod.mk.injEq, Option.some.injEq, reduceCtorEq, and_false,
        List.not_mem_nil, or_false] at member
      obtain ⟨rfl, rfl⟩ := member
      obtain rfl := Option.some.inj (Option.some.inj there)
      exact .leaf _
  have schemas : schema.Rearranged other := by
    refine .object (List.Perm.swap _ _ _) fun name a b found there => ?_
    have member := Entries.mem_of_get? found
    simp only [List.mem_cons, Prod.mk.injEq, List.not_mem_nil, or_false] at member
    rcases member with ⟨rfl, rfl⟩ | ⟨rfl, rfl⟩
    · obtain rfl := Option.some.inj there
      exact .leaf _
    · obtain rfl := Option.some.inj there
      exact shapes
  have texts : ∀ key value, (key, value) ∈ [("kind", Value.string "round"),
      ("value", .string "NaN")] → value.isContainer = false := by
    intro key value member
    simp only [List.mem_cons, Prod.mk.injEq, List.not_mem_nil, or_false] at member
    rcases member with ⟨-, rfl⟩ | ⟨-, rfl⟩ <;> rfl
  have tidy : input.Proper := by decide +zetaReduce
  have dense : input.Dense := by
    refine .object (by simp [Filled, inner]) fun key value member => ?_
    simp only [List.mem_cons, Prod.mk.injEq, List.not_mem_nil, or_false] at member
    rcases member with ⟨-, rfl⟩ | ⟨-, rfl⟩
    · exact .scalar rfl
    · exact .object (by simp [Filled]) fun key value member => .scalar (texts key value member)
  have inners : inner.Rearranged inner' :=
    .of_entries (by decide) (List.Perm.swap _ _ _) fun key x member =>
      ⟨x, by simpa [or_comm] using member, .refl x⟩
  have inputs : input.Rearranged input' := by
    refine .of_entries (by decide) (List.Perm.swap _ _ _) fun key x member => ?_
    simp only [List.mem_cons, Prod.mk.injEq, List.not_mem_nil, or_false] at member
    rcases member with ⟨rfl, rfl⟩ | ⟨rfl, rfl⟩
    · exact ⟨_, by simp, .refl _⟩
    · exact ⟨inner', by simp, inners⟩
  refine ⟨proper, schemas, tidy, dense, inputs, ?_⟩
  have done : ∃ result, Engine.read.run schema input = .ok result := ⟨_, rfl⟩
  rcases run_rearranged .read proper schemas tidy dense inputs with both | ⟨fault, -, failed, -⟩
  · exact both
  · obtain ⟨result, done⟩ := done
    simp [failed] at done

end Schema

end WireSchema
