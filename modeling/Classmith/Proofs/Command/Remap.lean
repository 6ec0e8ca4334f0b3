import Classmith.Command.Run
import Classmith.Proofs.ClassFile.RoundTrip
import Classmith.Proofs.Files.Writing
import Classmith.Proofs.Json.Reading

/-!
# Renamed classes, written and read

What a remapping command leaves at its output is a document of the renamed classes, and loading that
document gives these classes again.
-/
namespace Classmith

open Json (nestingLimit)

/-! ## Documents of classes -/

/-- The classes as they are written to a file. -/
def document (classes : List Class) : String :=
  (Json.array (classes.map (Class.toJson .document))).pretty ++ "\n"

/-- The numbers of a class keep their values, and its written form is nested no deeper than the given
levels. -/
def Class.Storable (style : NumberStyle) (levels : Nat) (c : Class) : Prop :=
  Fits style levels c.numbers (c.toJson style)

theorem itemsDepth_le {items : List Json} {levels : Nat} (h : ∀ i ∈ items, i.depth ≤ levels) :
    Json.itemsDepth items ≤ levels := by
  induction items with
  | nil => exact Nat.zero_le levels
  | cons item rest ih =>
    obtain ⟨hitem, hrest⟩ := List.forall_mem_cons.mp h
    rw [Json.itemsDepth]
    exact Nat.max_le.mpr ⟨hitem, ih hrest⟩

theorem parseClasses_document {classes : List Class} {levels : Nat} (hlevels : levels < nestingLimit)
    (h : ∀ c ∈ classes, c.Storable .document levels) (path : String) :
    FileTree.parseClasses path (document classes).toUTF8 = .ok classes := by
  have hdecodes : Json.Decodes ClassFile.classes
      (.array (classes.map (Class.toJson .document))) classes :=
    Json.Decoder.decodes_list fun c hc =>
      ClassFile.decodes_class ((h c hc).mono (Nat.le_of_lt hlevels))
  have hdepth : (Json.array (classes.map (Class.toJson .document))).depth ≤ nestingLimit := by
    rw [Json.depth]
    have hitems : Json.itemsDepth (classes.map (Class.toJson .document)) ≤ levels := by
      apply itemsDepth_le
      intro i hi
      obtain ⟨c, hc, rfl⟩ := List.mem_map.mp hi
      exact (h c hc).nesting
    omega
  rw [FileTree.parseClasses, document, Json.read_pretty hdecodes.sound hdepth, hdecodes.decoded]

namespace Command

/-! ## Runs that end well -/

variable {α β : Type} {world after : World}

theorem ended_well {r : Except Failure Unit × World} (h : r.1.isOk = true) : r = (.ok (), r.2) := by
  obtain ⟨result, final⟩ := r
  cases result with
  | error failure => cases h
  | ok u => rfl

theorem exists_of_bind {x : Action α} {f : α → Action β} {b : β}
    (h : (x >>= f) world = (.ok b, after)) :
    ∃ a middle, x world = (.ok a, middle) ∧ f a middle = (.ok b, after) := by
  have hrun : (x >>= f) world = ExceptT.bindCont f (x world).1 (x world).2 := rfl
  rw [hrun] at h
  cases hfirst : (x world).1 with
  | error failure =>
    rw [hfirst] at h
    cases h
  | ok a =>
    rw [hfirst] at h
    exact ⟨a, (x world).2, Prod.ext hfirst rfl, h⟩

theorem of_attempt {e : Except Failure α} {a : α} (h : attempt e world = (.ok a, after)) :
    e = .ok a ∧ after = world := by
  cases e with
  | error f => cases h
  | ok x =>
    cases h
    exact ⟨rfl, rfl⟩

theorem of_check {e : Except Error α} {a : α} (h : check e world = (.ok a, after)) :
    e = .ok a ∧ after = world := by
  cases e with
  | error f => cases h
  | ok x =>
    cases h
    exact ⟨rfl, rfl⟩

theorem of_get {found : World} (h : (get : Action World) world = (.ok found, after)) :
    found = world ∧ after = world := by
  cases h
  exact ⟨rfl, rfl⟩

theorem of_loadInput {path : String} {classes : List Class}
    (h : loadInput path world = (.ok classes, after)) :
    world.tree.loadClasses path = .ok classes ∧ after = world := by
  obtain ⟨found, middle, hget, hload⟩ := exists_of_bind h
  obtain ⟨rfl, rfl⟩ := of_get hget
  by_cases hexists : middle.tree.fileExists path
  · rw [if_pos hexists] at hload
    exact of_attempt hload
  · rw [if_neg hexists] at hload
    cases hload

theorem of_loadMappings {path : String} {m : MappingSet}
    (h : loadMappings path world = (.ok m, after)) : after = world := by
  obtain ⟨found, middle, hget, hload⟩ := exists_of_bind h
  obtain ⟨rfl, rfl⟩ := of_get hget
  cases hentry : middle.tree.entry path with
  | error e =>
    rw [hentry] at hload
    cases hload
  | ok place =>
    rw [hentry] at hload
    dsimp only at hload
    generalize Tiny.parse _ = parsed at hload
    cases parsed with
    | error e => cases hload
    | ok mappings =>
      cases hload
      rfl

theorem of_writeFile {path text : String} {u : Unit}
    (h : writeFile path text world = (.ok u, after)) :
    world.tree.write path text.toUTF8 = .ok after.tree ∧ after.stdout = world.stdout := by
  obtain ⟨found, middle, hget, hwrite⟩ := exists_of_bind h
  obtain ⟨rfl, rfl⟩ := of_get hget
  cases hresult : middle.tree.write path text.toUTF8 with
  | error e =>
    rw [hresult] at hwrite
    cases hwrite
  | ok tree =>
    rw [hresult] at hwrite
    cases hwrite
    exact ⟨rfl, rfl⟩

/-- What a command has left at its output: the classes of the file, or those of the printed text. -/
def classesAt (output : Option String) (world : World) : Except Failure (List Class) :=
  match output.filter fun path => !isStdout path with
  | some path => world.tree.loadClasses path
  | none => FileTree.parseClasses "-" world.stdout.toUTF8

/-- What was emitted can be loaded. -/
theorem classesAt_of_emit {output : Option String} {classes : List Class} {levels : Nat} {u : Unit}
    (h : emit output (document classes) world = (.ok u, after)) (hempty : world.stdout = "")
    (hlevels : levels < nestingLimit) (hstorable : ∀ c ∈ classes, c.Storable .document levels) :
    classesAt output after = .ok classes := by
  have hparsed := parseClasses_document hlevels hstorable
  unfold emit at h
  unfold classesAt
  cases htarget : output.filter fun path => !isStdout path with
  | some path =>
    rw [htarget] at h
    show after.tree.loadClasses path = _
    rw [FileTree.loadClasses_write (of_writeFile h).1]
    exact hparsed path
  | none =>
    rw [htarget] at h
    have hprinted : after.stdout = document classes := by
      cases h
      show world.stdout ++ document classes = _
      rw [hempty, String.empty_append]
    show FileTree.parseClasses "-" after.stdout.toUTF8 = _
    rw [hprinted]
    exact hparsed "-"

/-- The classes at the input with the renames of the mappings, and with those of inner classes that follow
their outer classes on request. -/
def remappedClasses (tree : FileTree) (input mappings : String) (reverse followOuter : Bool) :
    Except Failure (List Class) := do
  let loaded ← tree.loadClasses input
  let read ← (loadMappings mappings ⟨tree, ""⟩).1
  let remapper ← prepare loaded (if reverse then read.reversed else read)
  let ready := if followOuter then remapper.followOuterClasses.1 else remapper
  match ready.process with
  | (.ok (), done) => return done.targets.classes
  | (.error e, _) => throw (.of (.error e))

/-- A remapping command that ends well has emitted the document of the remapped classes. -/
theorem exists_of_remap {tree : FileTree} {input mappings : String} {reverse followOuter : Bool}
    {writeMappings output : Option String} {u : Unit}
    (h : runOn (.remap input mappings reverse followOuter writeMappings output) tree =
      (.ok u, after)) :
    ∃ classes middle, remappedClasses tree input mappings reverse followOuter = .ok classes ∧
      middle.stdout = "" ∧ emit output (document classes) middle = (.ok u, after) := by
  obtain ⟨loaded, first, hinput, hloaded⟩ := exists_of_bind h
  obtain ⟨hload, rfl⟩ := of_loadInput hinput
  obtain ⟨read, second, hmappings, hread⟩ := exists_of_bind hloaded
  obtain rfl := of_loadMappings hmappings
  obtain ⟨remapper, third, hattempt, hprepared⟩ := exists_of_bind hread
  obtain ⟨hprepare, rfl⟩ := of_attempt hattempt
  have hready : (if followOuter then remapper.followOuterClasses.1 else remapper) =
      (if followOuter then remapper.followOuterClasses else (remapper, Table.empty)).1 := by
    cases followOuter <;> rfl
  generalize (if followOuter then remapper.followOuterClasses else (remapper, Table.empty)) = pair
    at hprepared hready
  obtain ⟨ready, added⟩ := pair
  have hend : ∀ middle, (check ready.process.1 >>= fun _ =>
      emit output (document ready.process.2.targets.classes)) middle = (.ok u, after) →
        remappedClasses tree input mappings reverse followOuter =
            .ok ready.process.2.targets.classes ∧
          emit output (document ready.process.2.targets.classes) middle = (.ok u, after) := by
    intro middle hchecked
    obtain ⟨_, last, hcheck, hemit⟩ := exists_of_bind hchecked
    obtain ⟨hresult, rfl⟩ := of_check hcheck
    have hdone : ready.process = (.ok (), ready.process.2) := Prod.ext hresult rfl
    refine ⟨?_, hemit⟩
    simp only [remappedClasses, hload, hmappings, hprepare, hready, bind, Except.bind]
    rw [hdone]
    rfl
  cases writeMappings with
  | none =>
    obtain ⟨hclasses, hemit⟩ := hend _ hprepared
    exact ⟨_, _, hclasses, rfl, hemit⟩
  | some path =>
    obtain ⟨_, middle, hwrite, hwritten⟩ := exists_of_bind hprepared
    obtain ⟨hclasses, hemit⟩ := hend _ hwritten
    exact ⟨_, middle, hclasses, (of_writeFile hwrite).2, hemit⟩

end Command

/-! ## Survival -/

/-- A class whose numbers keep their values and whose form is not nested too deep is decoded from that form
as it was, so no two such classes have the same form; and what a remapping command leaves at its output is
loaded as the classes that it has renamed, if they are such classes inside the array of a file. -/
theorem classes_survive_writing (style : NumberStyle) :
    (∀ c : Class, c.Storable style nestingLimit → ClassFile.anyClass (c.toJson style) = .ok c) ∧
      (∀ c d : Class, c.Storable style nestingLimit → d.Storable style nestingLimit → c ≠ d →
        c.toJson style ≠ d.toJson style) ∧
      ∀ (tree : FileTree) (input mappings : String) (reverse followOuter : Bool)
        (writeMappings output : Option String) (after : World),
        Command.runOn (.remap input mappings reverse followOuter writeMappings output) tree =
          (.ok (), after) →
        ∃ classes, Command.remappedClasses tree input mappings reverse followOuter = .ok classes ∧
          ((∀ c ∈ classes, c.Storable .document (nestingLimit - 1)) →
            Command.classesAt output after = .ok classes) := by
  have hdecoded : ∀ c : Class, c.Storable style nestingLimit →
      ClassFile.anyClass (c.toJson style) = .ok c :=
    fun c hc => (ClassFile.decodes_class hc).decoded
  refine ⟨hdecoded, ?_, ?_⟩
  · intro c d hc hd hne hsame
    have hc := hdecoded c hc
    rw [hsame, hdecoded d hd] at hc
    exact hne (Except.ok.inj hc).symm
  · intro tree input mappings reverse followOuter writeMappings output after hrun
    obtain ⟨classes, middle, hclasses, hempty, hemit⟩ := Command.exists_of_remap hrun
    exact ⟨classes, hclasses, Command.classesAt_of_emit hemit hempty (by decide)⟩

namespace Samples

open Number (Single Double)

/-- One tenth and its neighbour in 32 bits, with fractions that have no end in binary. -/
def tenth : Double := ⟨0x3FB999999999999A⟩

def shortTenth : Single := ⟨0x3DCCCCCD⟩

def scaleField : Field where
  access := 0x19
  name := "SCALE"
  descriptor := "D"
  value := some (.double tenth)
  annotations :=
    [.mk "Lp/Unit;" true [("of", .nested (.mk "Lp/Base;" false [("exponent", .byte (-1))])),
      ("bounds", .array [.float shortTenth, .enumConstant "Lp/Mode;" "OPEN", .char 0x22])]]

def readMethod : Method where
  access := 0x1
  name := "read"
  descriptor := "(I)D"
  exceptions := ["p/Broken"]
  maxStack := 4
  maxLocals := 2
  instructions :=
    [.label 0, .line 12 0, .ldc (.dynamic "unit" "Lp/Unit;" { tag := 6, owner := "p/Gauge" }
      [.long (-9223372036854775808), .float shortTenth, .dynamic "x" "I" {} []]),
      .var 0x15 1, .tableSwitch (-1) 0 3 [0, 3], .lookupSwitch 3 [-7] [0], .iinc 1 (-128),
      .method 0xb8 "p/Gauge" "fit" "(I)I" true, .multiNewArray "[[I" 2, .jump 0xa7 3,
      .frame (.full [.object "p/Gauge", .integer] [.uninitialized 0]), .frame (.chop 1), .label 3]
  tryCatches := [⟨0, 3, 3, none⟩]
  localVariables := [⟨"n", "I", some "TT;", 0, 3, 1⟩]
  parameterAnnotations := [[], [.mk "Lp/Unit;" false []]]
  annotationDefault := some (.double tenth)

/-- A class with parts of most kinds, among them quotes, control characters and nested constants. -/
def gauge : Class where
  version := 61
  access := 0x21
  name := "p/Gauge"
  superName := some "java/lang/Object"
  interfaces := ["p/Meter"]
  sourceFile := some "Ga\"u\\ge\n\x01é.java"
  fields := [scaleField]
  methods := [readMethod]
  innerClasses := [⟨"p/Gauge$Dial", some "p/Gauge", some "Dial", 9⟩]
  recordComponents := [{ name := "scale", descriptor := "D" }]
  module := some { name := "m", uses := ["p/Meter"], provides := [⟨"p/Meter", ["p/Gauge"]⟩] }

/-- A tree with a class, and a mapping for it. -/
def gaugeTree : FileTree :=
  (FileTree.empty.addFile ["in.json"] ("[\x7b\"name\": \"p/Gauge\", \"fields\": [\x7b\"value\": " ++
    "\x7b\"double\": 0.1\x7d, \"name\": \"SCALE\"\x7d]\x7d]").toUTF8).addFile ["names.tiny"]
    "v1 a b\nCLASS p/Gauge q/Dial\n".toUTF8

def gaugeCommand : Command :=
  .remap "in.json" "names.tiny" false true (some "kept.tiny") (some "out.json")

end Samples

instance (style : NumberStyle) : DecidablePred style.Keeps
  | .inl x => inferInstanceAs (Decidable
      (x.isFinite ∧ ∀ n ∈ x.numeral? style.singles, n.single? = some x))
  | .inr x => inferInstanceAs (Decidable
      (x.isFinite ∧ ∀ n ∈ x.numeral? style.doubles, n.double? = some x))

instance (style : NumberStyle) (levels : Nat) : DecidablePred (Class.Storable style levels) :=
  fun c => decidable_of_iff ((∀ x ∈ c.numbers, style.Keeps x) ∧ (c.toJson style).depth ≤ levels)
    ⟨fun h => ⟨h.1, h.2⟩, fun h => ⟨h.kept, h.nesting⟩⟩

theorem classes_survive_writing_gauge :
    ClassFile.anyClass (Samples.gauge.toJson .exchange) = .ok Samples.gauge ∧
      Samples.gauge.toJson .exchange ≠ ({} : Class).toJson .exchange ∧
      ∃ classes, Command.remappedClasses Samples.gaugeTree "in.json" "names.tiny" false true =
          .ok classes ∧
        classes.map Class.name = ["q/Dial"] ∧
        Command.classesAt (some "out.json") (Command.runOn Samples.gaugeCommand Samples.gaugeTree).2 =
          .ok classes := by
  have hgauge : Samples.gauge.Storable .exchange nestingLimit := by decide +kernel
  have hempty : ({} : Class).Storable .exchange nestingLimit := by decide +kernel
  have hdiffer : Samples.gauge ≠ {} := fun h => absurd (congrArg Class.name h) (by decide)
  have hrun := Command.ended_well
    (by decide +kernel : (Command.runOn Samples.gaugeCommand Samples.gaugeTree).1.isOk = true)
  have hclasses : (Command.remappedClasses Samples.gaugeTree "in.json" "names.tiny" false
      true).toOption.all (fun classes => classes.map Class.name = ["q/Dial"] ∧
        ∀ c ∈ classes, c.Storable .document (nestingLimit - 1)) = true := by decide +kernel
  obtain ⟨hdecoded, hinjective, hremap⟩ := classes_survive_writing .exchange
  obtain ⟨classes, hmade, hback⟩ := hremap _ _ _ _ _ _ _ _ hrun
  rw [hmade] at hclasses
  obtain ⟨hnames, hstorable⟩ := of_decide_eq_true hclasses
  exact ⟨hdecoded _ hgauge, hinjective _ _ hgauge hempty hdiffer, classes, hmade, hnames,
    hback hstorable⟩

end Classmith
