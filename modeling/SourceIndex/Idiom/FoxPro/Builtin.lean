import SourceIndex.Text.Case

/-!
# FoxPro: built-in functions and classes

What comes with the language and is not worth a reference.
-/

namespace SourceIndex.Idiom.FoxPro.Builtin

/-- Functions of numbers. -/
def numbers : List String :=
  ["ABS", "ACOS", "ASIN", "ATN2", "CEILING", "COS", "EXP", "FLOOR", "FV", "INT", "LOG", "LOG10",
    "MAX", "MIN", "MOD", "PI", "PV", "RAND", "ROUND", "SIGN", "SIN", "SQRT", "TAN", "VAL"]

/-- Functions of texts. -/
def texts : List String :=
  ["ALLTRIM", "ASC", "AT", "ATC", "ATCC", "ATCLINE", "ATLINE", "AT_C", "CHR", "CHRTRAN",
    "CHRTRANC", "DIFFERENCE", "GETWORDCOUNT", "GETWORDNUM", "LEFT", "LEFTC", "LEN", "LENC",
    "LIKE", "LIKEC", "LOWER", "LTRIM", "MLINE", "MEMLINES", "OCCURS", "PADL", "PADC", "PADR",
    "PROPER", "RAT", "RATC", "RATLINE", "REPLICATE", "RIGHT", "RIGHTC", "RTRIM", "SOUNDEX",
    "SPACE", "STR", "STRCONV", "STREXTRACT", "STRTRAN", "STUFF", "STUFFC", "SUBSTR", "SUBSTRC",
    "TEXTMERGE", "TRANSFORM", "TRIM", "UPPER"]

/-- Functions of dates and times. -/
def dates : List String :=
  ["CDOW", "CMONTH", "CTOD", "CTOT", "DATE", "DATETIME", "DAY", "DMY", "DOW", "DTOC", "DTOR",
    "DTOS", "DTOT", "GOMONTH", "HOUR", "MDY", "MINUTE", "MONTH", "QUARTER", "SEC", "SECONDS",
    "TIME", "TTOC", "TTOD", "WEEK", "YEAR"]

/-- Functions of types and conversions. -/
def types : List String :=
  ["BINTOC", "CAST", "CTOBIN", "CPCONVERT", "CPCURRENT", "EMPTY", "EVALUATE", "EVL", "IIF",
    "ICASE", "ISALPHA", "ISBLANK", "ISDIGIT", "ISLEADBYTE", "ISLOWER", "ISNULL", "ISUPPER", "NVL",
    "TYPE", "VARTYPE"]

/-- Functions of files. -/
def files : List String :=
  ["ADDBS", "CURDIR", "DEFAULTEXT", "DIRECTORY", "DRIVETYPE", "FCHSIZE", "FCLOSE", "FCOUNT",
    "FCREATE", "FDATE", "FEOF", "FERROR", "FFLUSH", "FGETS", "FILE", "FILETOSTR", "FLDCOUNT",
    "FLOCK", "FOPEN", "FORCEEXT", "FORCEPATH", "FPUTS", "FREAD", "FSEEK", "FSIZE", "FTIME",
    "FULLPATH", "FWRITE", "GETDIR", "GETFILE", "HOME", "JUSTDRIVE", "JUSTEXT", "JUSTFNAME",
    "JUSTPATH", "JUSTSTEM", "LOCFILE", "PUTFILE", "STRTOFILE"]

/-- Functions of cursors and tables. -/
def tables : List String :=
  ["ALIAS", "BOF", "CANDIDATE", "CDX", "CPDBF", "CURSORGETPROP", "CURSORSETPROP", "CURSORTOXML",
    "CURVAL", "DBF", "DBGETPROP", "DBSETPROP", "DBUSED", "DBC", "EOF", "FIELD", "FILTER", "FOUND",
    "GETFLDSTATE", "GETNEXTMODIFIED", "HEADER", "IDXCOLLATE", "INDBC", "INDEXSEEK", "ISEXCLUSIVE",
    "ISFLOCKED", "ISMARKED", "ISREADONLY", "ISRLOCKED", "KEY", "KEYMATCH", "LOCK", "LOOKUP",
    "LUPDATE", "MTON", "NTOM", "OLDVAL", "ORDER", "RECCOUNT", "RECNO", "RECSIZE", "RELATION",
    "REQUERY", "RLOCK", "SEEK", "SELECT", "SETFLDSTATE", "TABLEUPDATE", "TABLEREVERT", "TAG",
    "TAGCOUNT", "TAGNO", "TARGET", "TXNLEVEL", "USED", "XMLTOCURSOR", "XMLUPDATEGRAM"]

/-- Functions of arrays. -/
def arrays : List String :=
  ["ACOPY", "ADATABASES", "ADBOBJECTS", "ADEL", "ADIR", "AELEMENT", "AERROR", "AFIELDS", "AFONT",
    "AGETCLASS", "AGETFILEVERSION", "AINS", "AINSTANCE", "ALANGUAGE", "ALEN", "ALINES",
    "AMEMBERS", "ANETRESOURCES", "APRINTERS", "APROCINFO", "ASCAN", "ASELOBJ", "ASESSIONS",
    "ASORT", "ASTACKINFO", "ASUBSCRIPT", "AUSED", "AVCXCLASSES"]

/-- Functions of objects. -/
def objects : List String :=
  ["ACLASS", "COMPOBJ", "COMPROP", "CREATEOBJECT", "DODEFAULT", "GETINTERFACE", "GETOBJECT",
    "GETPEM", "NEWOBJECT", "PEMSTATUS"]

/-- Functions of windows, menus and input. -/
def screen : List String :=
  ["BAR", "BARCOUNT", "BARPROMPT", "CAPSLOCK", "CNTBAR", "CNTPAD", "FONTMETRIC", "GETCOLOR",
    "GETCP", "GETEXPR", "GETFONT", "GETPICT", "GETPRINTER", "INKEY", "INPUTBOX", "INSMODE",
    "LASTKEY", "MCOL", "MDOWN", "MESSAGEBOX", "MROW", "MWINDOW", "NUMLOCK", "OBJNUM",
    "OBJTOCLIENT", "OBJVAR", "PAD", "PRMBAR", "PRMPAD", "PROMPT", "PRTINFO", "RGB", "RGBSCHEME",
    "ROW", "SCHEME", "SCOLS", "SKPBAR", "SKPPAD", "SROWS", "SYSMETRIC", "TXTWIDTH", "WBORDER",
    "WCHILD", "WCOLS", "WDOCKABLE", "WEXIST", "WFONT", "WLAST", "WLCOL", "WLROW", "WMAXIMUM",
    "WMINIMUM", "WONTOP", "WOUTPUT", "WPARENT", "WREAD", "WROWS", "WTITLE", "WVISIBLE"]

/-- Functions of the environment. -/
def environment : List String :=
  ["DISKSPACE", "EXECSCRIPT", "GETENV", "GETHOST", "LINENO", "MEMORY", "MESSAGE", "ON", "OS",
    "PARAMETERS", "PCOUNT", "PRINTSTATUS", "PROGRAM", "RDLEVEL", "SET", "SYS", "VERSION"]

/-- Functions of bits. -/
def bits : List String :=
  ["BITAND", "BITCLEAR", "BITLSHIFT", "BITNOT", "BITOR", "BITRSHIFT", "BITSET", "BITTEST",
    "BITXOR"]

/-- Functions of events. -/
def events : List String :=
  ["BINDEVENT", "RAISEEVENT", "UNBINDEVENTS"]

/-- Functions of no group. -/
def others : List String :=
  ["ANSITOOEM", "BETWEEN", "CHRSAW", "INLIST", "OEMTOANSI", "TEXTWIDTH", "VARREAD"]

/-- All functions. -/
def functions : List String :=
  numbers ++ texts ++ dates ++ types ++ files ++ tables ++ arrays ++ objects ++ screen ++
    environment ++ bits ++ events ++ others

/-- The classes. -/
def classes : List String :=
  ["CUSTOM", "SESSION", "FORM", "COMMANDBUTTON", "TEXTBOX", "LABEL", "CONTAINER", "PAGE",
    "PAGEFRAME", "GRID", "COLUMN", "HEADER", "COMBOBOX", "LISTBOX", "EDITBOX", "SPINNER", "TIMER",
    "IMAGE", "SHAPE", "LINE", "COMMANDGROUP", "OPTIONGROUP", "CHECKBOX", "OPTIONBUTTON"]

/-- Is it the name of a function? Letter case does not count. -/
def isFunction (name : String) : Bool :=
  functions.contains (Text.upper name)

/-- Is it the name of a class? Letter case does not count. -/
def isClass (name : String) : Bool :=
  classes.contains (Text.upper name)

end SourceIndex.Idiom.FoxPro.Builtin
