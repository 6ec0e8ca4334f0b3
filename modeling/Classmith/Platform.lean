import Classmith.Hierarchy.Basic

/-!
# Platform classes

Built-in knowledge of common types of the Java platform, for classes that no other source knows.
-/
namespace Classmith.Platform

def classInfo (name superName : String) (interfaces : List String) : ClassInfo :=
  ⟨name, some superName, interfaces, false⟩

def interfaceInfo (name : String) (interfaces : List String) : ClassInfo :=
  ⟨name, some ClassInfo.rootName, interfaces, true⟩

def infos : List ClassInfo := [
  interfaceInfo "java/io/Serializable" [],
  interfaceInfo "java/lang/Comparable" [],
  interfaceInfo "java/lang/Cloneable" [],
  interfaceInfo "java/lang/CharSequence" [],
  interfaceInfo "java/lang/Appendable" [],
  interfaceInfo "java/lang/Runnable" [],
  interfaceInfo "java/lang/AutoCloseable" [],
  interfaceInfo "java/io/Closeable" ["java/lang/AutoCloseable"],
  interfaceInfo "java/lang/Iterable" [],
  interfaceInfo "java/util/Iterator" [],
  interfaceInfo "java/util/RandomAccess" [],
  interfaceInfo "java/util/Collection" ["java/lang/Iterable"],
  interfaceInfo "java/util/List" ["java/util/Collection"],
  interfaceInfo "java/util/Set" ["java/util/Collection"],
  interfaceInfo "java/util/SortedSet" ["java/util/Set"],
  interfaceInfo "java/util/NavigableSet" ["java/util/SortedSet"],
  interfaceInfo "java/util/Queue" ["java/util/Collection"],
  interfaceInfo "java/util/Deque" ["java/util/Queue"],
  interfaceInfo "java/util/Map" [],
  interfaceInfo "java/util/SortedMap" ["java/util/Map"],
  interfaceInfo "java/util/NavigableMap" ["java/util/SortedMap"],
  classInfo "java/lang/String" "java/lang/Object"
    ["java/io/Serializable", "java/lang/Comparable", "java/lang/CharSequence"],
  classInfo "java/lang/AbstractStringBuilder" "java/lang/Object"
    ["java/lang/Appendable", "java/lang/CharSequence"],
  classInfo "java/lang/StringBuilder" "java/lang/AbstractStringBuilder"
    ["java/io/Serializable", "java/lang/Comparable", "java/lang/CharSequence"],
  classInfo "java/lang/Class" "java/lang/Object" ["java/io/Serializable"],
  classInfo "java/lang/Enum" "java/lang/Object" ["java/lang/Comparable", "java/io/Serializable"],
  classInfo "java/lang/Record" "java/lang/Object" [],
  classInfo "java/lang/Number" "java/lang/Object" ["java/io/Serializable"],
  classInfo "java/lang/Byte" "java/lang/Number" ["java/lang/Comparable"],
  classInfo "java/lang/Short" "java/lang/Number" ["java/lang/Comparable"],
  classInfo "java/lang/Integer" "java/lang/Number" ["java/lang/Comparable"],
  classInfo "java/lang/Long" "java/lang/Number" ["java/lang/Comparable"],
  classInfo "java/lang/Float" "java/lang/Number" ["java/lang/Comparable"],
  classInfo "java/lang/Double" "java/lang/Number" ["java/lang/Comparable"],
  classInfo "java/lang/Boolean" "java/lang/Object" ["java/io/Serializable", "java/lang/Comparable"],
  classInfo "java/lang/Character" "java/lang/Object"
    ["java/io/Serializable", "java/lang/Comparable"],
  classInfo "java/lang/Throwable" "java/lang/Object" ["java/io/Serializable"],
  classInfo "java/lang/Exception" "java/lang/Throwable" [],
  classInfo "java/lang/Error" "java/lang/Throwable" [],
  classInfo "java/lang/RuntimeException" "java/lang/Exception" [],
  classInfo "java/lang/IllegalArgumentException" "java/lang/RuntimeException" [],
  classInfo "java/lang/IllegalStateException" "java/lang/RuntimeException" [],
  classInfo "java/lang/NullPointerException" "java/lang/RuntimeException" [],
  classInfo "java/lang/UnsupportedOperationException" "java/lang/RuntimeException" [],
  classInfo "java/io/IOException" "java/lang/Exception" [],
  classInfo "java/util/AbstractCollection" "java/lang/Object" ["java/util/Collection"],
  classInfo "java/util/AbstractList" "java/util/AbstractCollection" ["java/util/List"],
  classInfo "java/util/AbstractSequentialList" "java/util/AbstractList" [],
  classInfo "java/util/ArrayList" "java/util/AbstractList"
    ["java/util/List", "java/util/RandomAccess", "java/lang/Cloneable", "java/io/Serializable"],
  classInfo "java/util/LinkedList" "java/util/AbstractSequentialList"
    ["java/util/List", "java/util/Deque", "java/lang/Cloneable", "java/io/Serializable"],
  classInfo "java/util/Vector" "java/util/AbstractList"
    ["java/util/List", "java/util/RandomAccess", "java/lang/Cloneable", "java/io/Serializable"],
  classInfo "java/util/Stack" "java/util/Vector" [],
  classInfo "java/util/AbstractSet" "java/util/AbstractCollection" ["java/util/Set"],
  classInfo "java/util/HashSet" "java/util/AbstractSet"
    ["java/util/Set", "java/lang/Cloneable", "java/io/Serializable"],
  classInfo "java/util/LinkedHashSet" "java/util/HashSet"
    ["java/util/Set", "java/lang/Cloneable", "java/io/Serializable"],
  classInfo "java/util/TreeSet" "java/util/AbstractSet"
    ["java/util/NavigableSet", "java/lang/Cloneable", "java/io/Serializable"],
  classInfo "java/util/ArrayDeque" "java/util/AbstractCollection"
    ["java/util/Deque", "java/lang/Cloneable", "java/io/Serializable"],
  classInfo "java/util/AbstractMap" "java/lang/Object" ["java/util/Map"],
  classInfo "java/util/HashMap" "java/util/AbstractMap"
    ["java/util/Map", "java/lang/Cloneable", "java/io/Serializable"],
  classInfo "java/util/LinkedHashMap" "java/util/HashMap" ["java/util/Map"],
  classInfo "java/util/TreeMap" "java/util/AbstractMap"
    ["java/util/NavigableMap", "java/lang/Cloneable", "java/io/Serializable"]]

def loader : Loader := Loader.ofInfos infos

end Classmith.Platform
